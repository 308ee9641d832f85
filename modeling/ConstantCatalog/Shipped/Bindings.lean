import ConstantCatalog.Binding.Basic

/-! # Shipped bindings

The bindings for the shipped enumerations, in the order in which they are checked. -/

namespace ConstantCatalog.Shipped
set_option autoImplicit false

/-- What happens to the contents of an attachment when a render pass starts. -/
def loadOp : Binding where
  enumeration := "VkAttachmentLoadOp"
  kind := .value
  variants := [
    ⟨"Load", "VK_ATTACHMENT_LOAD_OP_LOAD", 0⟩,
    ⟨"Clear", "VK_ATTACHMENT_LOAD_OP_CLEAR", 1⟩,
    ⟨"DontCare", "VK_ATTACHMENT_LOAD_OP_DONT_CARE", 2⟩,
    ⟨"None", "VK_ATTACHMENT_LOAD_OP_NONE", 1000400000⟩]

/-- What happens to the contents of an attachment when a render pass ends. -/
def storeOp : Binding where
  enumeration := "VkAttachmentStoreOp"
  kind := .value
  variants := [
    ⟨"Store", "VK_ATTACHMENT_STORE_OP_STORE", 0⟩,
    ⟨"DontCare", "VK_ATTACHMENT_STORE_OP_DONT_CARE", 1⟩,
    ⟨"None", "VK_ATTACHMENT_STORE_OP_NONE", 1000301000⟩]

/-- How the pixels of a swapchain image are interpreted. -/
def colorSpace : Binding where
  enumeration := "VkColorSpaceKHR"
  kind := .value
  variants := [
    ⟨"SrgbNonlinear", "VK_COLOR_SPACE_SRGB_NONLINEAR_KHR", 0⟩,
    ⟨"DisplayP3Nonlinear", "VK_COLOR_SPACE_DISPLAY_P3_NONLINEAR_EXT", 1000104001⟩,
    ⟨"ExtendedSrgbLinear", "VK_COLOR_SPACE_EXTENDED_SRGB_LINEAR_EXT", 1000104002⟩,
    ⟨"DisplayP3Linear", "VK_COLOR_SPACE_DISPLAY_P3_LINEAR_EXT", 1000104003⟩,
    ⟨"DciP3Nonlinear", "VK_COLOR_SPACE_DCI_P3_NONLINEAR_EXT", 1000104004⟩,
    ⟨"Bt709Linear", "VK_COLOR_SPACE_BT709_LINEAR_EXT", 1000104005⟩,
    ⟨"Bt709Nonlinear", "VK_COLOR_SPACE_BT709_NONLINEAR_EXT", 1000104006⟩,
    ⟨"Bt2020Linear", "VK_COLOR_SPACE_BT2020_LINEAR_EXT", 1000104007⟩,
    ⟨"Hdr10St2084", "VK_COLOR_SPACE_HDR10_ST2084_EXT", 1000104008⟩,
    ⟨"DolbyVision", "VK_COLOR_SPACE_DOLBYVISION_EXT", 1000104009⟩,
    ⟨"Hdr10Hlg", "VK_COLOR_SPACE_HDR10_HLG_EXT", 1000104010⟩,
    ⟨"AdobeRgbLinear", "VK_COLOR_SPACE_ADOBERGB_LINEAR_EXT", 1000104011⟩,
    ⟨"AdobeRgbNonlinear", "VK_COLOR_SPACE_ADOBERGB_NONLINEAR_EXT", 1000104012⟩,
    ⟨"PassThrough", "VK_COLOR_SPACE_PASS_THROUGH_EXT", 1000104013⟩,
    ⟨"ExtendedSrgbNonlinear", "VK_COLOR_SPACE_EXTENDED_SRGB_NONLINEAR_EXT", 1000104014⟩,
    ⟨"DisplayNativeAmd", "VK_COLOR_SPACE_DISPLAY_NATIVE_AMD", 1000213000⟩]

/-- How queued images reach the screen. -/
def presentMode : Binding where
  enumeration := "VkPresentModeKHR"
  kind := .value
  variants := [
    ⟨"Immediate", "VK_PRESENT_MODE_IMMEDIATE_KHR", 0⟩,
    ⟨"Mailbox", "VK_PRESENT_MODE_MAILBOX_KHR", 1⟩,
    ⟨"Fifo", "VK_PRESENT_MODE_FIFO_KHR", 2⟩,
    ⟨"FifoRelaxed", "VK_PRESENT_MODE_FIFO_RELAXED_KHR", 3⟩,
    ⟨"SharedDemandRefresh", "VK_PRESENT_MODE_SHARED_DEMAND_REFRESH_KHR", 1000111000⟩,
    ⟨"SharedContinuousRefresh", "VK_PRESENT_MODE_SHARED_CONTINUOUS_REFRESH_KHR", 1000111001⟩,
    ⟨"FifoLatestReady", "VK_PRESENT_MODE_FIFO_LATEST_READY_EXT", 1000361000⟩]

def accelerationFlag : Binding where
  enumeration := "VkAccelerationStructureCreateFlagBitsKHR"
  kind := .flags
  variants := [
    ⟨"DeviceAddressCaptureReplay", "VK_ACCELERATION_STRUCTURE_CREATE_DEVICE_ADDRESS_CAPTURE_REPLAY_BIT_KHR", 0x1⟩,
    ⟨"DescriptorBufferCaptureReplay", "VK_ACCELERATION_STRUCTURE_CREATE_DESCRIPTOR_BUFFER_CAPTURE_REPLAY_BIT_EXT", 0x8⟩,
    ⟨"Motion", "VK_ACCELERATION_STRUCTURE_CREATE_MOTION_BIT_NV", 0x4⟩]

/-- Which part of an image is meant; `None` is the empty mask. -/
def imageAspect : Binding where
  enumeration := "VkImageAspectFlagBits"
  kind := .flags
  variants := [
    ⟨"Color", "VK_IMAGE_ASPECT_COLOR_BIT", 0x1⟩,
    ⟨"Depth", "VK_IMAGE_ASPECT_DEPTH_BIT", 0x2⟩,
    ⟨"Stencil", "VK_IMAGE_ASPECT_STENCIL_BIT", 0x4⟩,
    ⟨"Metadata", "VK_IMAGE_ASPECT_METADATA_BIT", 0x8⟩,
    ⟨"Plane0", "VK_IMAGE_ASPECT_PLANE_0_BIT", 0x10⟩,
    ⟨"Plane1", "VK_IMAGE_ASPECT_PLANE_1_BIT", 0x20⟩,
    ⟨"Plane2", "VK_IMAGE_ASPECT_PLANE_2_BIT", 0x40⟩,
    ⟨"None", "VK_IMAGE_ASPECT_NONE", 0⟩,
    ⟨"MemoryPlane0", "VK_IMAGE_ASPECT_MEMORY_PLANE_0_BIT_EXT", 0x80⟩,
    ⟨"MemoryPlane1", "VK_IMAGE_ASPECT_MEMORY_PLANE_1_BIT_EXT", 0x100⟩,
    ⟨"MemoryPlane2", "VK_IMAGE_ASPECT_MEMORY_PLANE_2_BIT_EXT", 0x200⟩,
    ⟨"MemoryPlane3", "VK_IMAGE_ASPECT_MEMORY_PLANE_3_BIT_EXT", 0x400⟩]

def imageViewFlag : Binding where
  enumeration := "VkImageViewCreateFlagBits"
  kind := .flags
  variants := [
    ⟨"FragmentDensityMapDynamic", "VK_IMAGE_VIEW_CREATE_FRAGMENT_DENSITY_MAP_DYNAMIC_BIT_EXT", 0x1⟩,
    ⟨"DescriptorBufferCaptureReplay", "VK_IMAGE_VIEW_CREATE_DESCRIPTOR_BUFFER_CAPTURE_REPLAY_BIT_EXT", 0x4⟩,
    ⟨"FragmentDensityMapDeferred", "VK_IMAGE_VIEW_CREATE_FRAGMENT_DENSITY_MAP_DEFERRED_BIT_EXT", 0x2⟩]

def swapchainFlag : Binding where
  enumeration := "VkSwapchainCreateFlagBitsKHR"
  kind := .flags
  variants := [
    ⟨"SplitInstanceBindRegions", "VK_SWAPCHAIN_CREATE_SPLIT_INSTANCE_BIND_REGIONS_BIT_KHR", 0x1⟩,
    ⟨"Protected", "VK_SWAPCHAIN_CREATE_PROTECTED_BIT_KHR", 0x2⟩,
    ⟨"MutableFormat", "VK_SWAPCHAIN_CREATE_MUTABLE_FORMAT_BIT_KHR", 0x4⟩,
    ⟨"DeferredMemoryAllocation", "VK_SWAPCHAIN_CREATE_DEFERRED_MEMORY_ALLOCATION_BIT_EXT", 0x8⟩,
    ⟨"PresentId2", "VK_SWAPCHAIN_CREATE_PRESENT_ID_2_BIT_KHR", 0x40⟩,
    ⟨"PresentWait2", "VK_SWAPCHAIN_CREATE_PRESENT_WAIT_2_BIT_KHR", 0x80⟩]

def bindings : List Binding :=
  [loadOp, storeOp, colorSpace, presentMode, accelerationFlag, imageAspect, imageViewFlag,
    swapchainFlag]

end ConstantCatalog.Shipped
