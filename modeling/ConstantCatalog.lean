import ConstantCatalog.BlockText.Printer
import ConstantCatalog.Catalog.Session
import ConstantCatalog.Log.Page
import ConstantCatalog.Shipped.Build
import ConstantCatalog.Proofs.Alias.Loop
import ConstantCatalog.Proofs.Alias.Walk
import ConstantCatalog.Proofs.Block.References
import ConstantCatalog.Proofs.Block.Resolution
import ConstantCatalog.Proofs.Block.Diagnosis
import ConstantCatalog.Proofs.BlockText.Line
import ConstantCatalog.Proofs.BlockText.Written
import ConstantCatalog.Proofs.BlockText.Reader
import ConstantCatalog.Proofs.BlockText.RoundTrip
import ConstantCatalog.Proofs.BlockText.Comments
import ConstantCatalog.Proofs.BlockText.Acceptance
import ConstantCatalog.Proofs.BlockText.Outline
import ConstantCatalog.Proofs.Keyed
import ConstantCatalog.Proofs.Index
import ConstantCatalog.Proofs.Enumeration.Members
import ConstantCatalog.Proofs.Catalog.Load
import ConstantCatalog.Proofs.Binding.Agreement
import ConstantCatalog.Proofs.Catalog.Access
import ConstantCatalog.Proofs.Binding.Symbols
import ConstantCatalog.Proofs.Mask
import ConstantCatalog.Proofs.Enumeration.Flags
import ConstantCatalog.Proofs.Binding.Mask
import ConstantCatalog.Proofs.Catalog.Rejection
import ConstantCatalog.Proofs.BlockText.Numbering
import ConstantCatalog.Proofs.Catalog.Lookup
import ConstantCatalog.Proofs.BlockText.Concatenation
import ConstantCatalog.Proofs.Catalog.Texts
import ConstantCatalog.Proofs.Catalog.Question
import ConstantCatalog.Proofs.Catalog.Independence
import ConstantCatalog.Proofs.Catalog.Refusal
import ConstantCatalog.Proofs.Catalog.LoadRecords
import ConstantCatalog.Proofs.Catalog.Warnings
import ConstantCatalog.Proofs.Catalog.Options
import ConstantCatalog.Proofs.Enumeration.Decomposition
import ConstantCatalog.Proofs.Enumeration.Notice
import ConstantCatalog.Proofs.Block.Chains
import ConstantCatalog.Proofs.Enumeration.Order
import ConstantCatalog.Proofs.Block.Accounts
import ConstantCatalog.Proofs.Block.Shortening
import ConstantCatalog.Proofs.Binding.Adjunction
import ConstantCatalog.Proofs.Block.Insertion
import ConstantCatalog.Proofs.BlockText.FirstFault
import ConstantCatalog.Proofs.BlockText.Layout
import ConstantCatalog.Proofs.BlockText.Canonical
import ConstantCatalog.Proofs.Text.Split
import ConstantCatalog.Proofs.Availability.Version
import ConstantCatalog.Proofs.Availability.Meaning
import ConstantCatalog.Proofs.Availability.Written
import ConstantCatalog.Proofs.Availability.Names
import ConstantCatalog.Proofs.Cursor
import ConstantCatalog.Proofs.Text.Positional
import ConstantCatalog.Proofs.BlockText.Literal
import ConstantCatalog.Proofs.Alias.Progress
import ConstantCatalog.Proofs.Block.Walks
