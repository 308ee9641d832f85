import ConstantCatalog.Binding.Agreement
import ConstantCatalog.Catalog.Load
import ConstantCatalog.Shipped.Bindings
import ConstantCatalog.Shipped.Texts

/-! # The shipped catalog -/

namespace ConstantCatalog.Shipped
set_option autoImplicit false

/-- Builds the shipped catalog and, when the options say so, checks the shipped bindings. -/
def build (o : Options) : Logged Catalog := do
  .report [.shippedBegin]
  let c ← Catalog.ofTexts o texts
  if o.checkBindings then
    .ofExcept (Binding.checkAll c bindings)
  .report [.shippedEnd c.size]
  return c

end ConstantCatalog.Shipped
