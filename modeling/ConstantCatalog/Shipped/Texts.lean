import ConstantCatalog.BlockText.Printer

/-! # Shipped block texts

The blocks of the shipped enumerations, one enumeration a text, in the order in which they are
loaded. -/

namespace ConstantCatalog.Shipped
set_option autoImplicit false

/-- The text of a block with the given lines between its braces. -/
def textOf (provider name : String) (lines : List String) : String :=
  BlockText.ofLines ([("// Provided by " ++ provider).toList, BlockText.openingLine name.toList]
    ++ lines.map (·.toList) ++ [BlockText.closingLine name.toList])

def accelerationFlagText : String :=
  textOf "VK_KHR_acceleration_structure" "VkAccelerationStructureCreateFlagBitsKHR" [
  "    VK_ACCELERATION_STRUCTURE_CREATE_DEVICE_ADDRESS_CAPTURE_REPLAY_BIT_KHR = 0x00000001,",
  "  // Provided by VK_EXT_descriptor_buffer",
  "    VK_ACCELERATION_STRUCTURE_CREATE_DESCRIPTOR_BUFFER_CAPTURE_REPLAY_BIT_EXT = 0x00000008,",
  "  // Provided by VK_NV_ray_tracing_motion_blur",
  "    VK_ACCELERATION_STRUCTURE_CREATE_MOTION_BIT_NV = 0x00000004,"]

def loadOpText : String := textOf "VK_VERSION_1_0" "VkAttachmentLoadOp" [
  "    VK_ATTACHMENT_LOAD_OP_LOAD = 0,",
  "    VK_ATTACHMENT_LOAD_OP_CLEAR = 1,",
  "    VK_ATTACHMENT_LOAD_OP_DONT_CARE = 2,",
  "  // Provided by VK_VERSION_1_4",
  "    VK_ATTACHMENT_LOAD_OP_NONE = 1000400000,",
  "  // Provided by VK_EXT_load_store_op_none",
  "    VK_ATTACHMENT_LOAD_OP_NONE_EXT = VK_ATTACHMENT_LOAD_OP_NONE,",
  "  // Provided by VK_KHR_load_store_op_none",
  "    VK_ATTACHMENT_LOAD_OP_NONE_KHR = VK_ATTACHMENT_LOAD_OP_NONE,"] ++ "\n"

def storeOpText : String := textOf "VK_VERSION_1_0" "VkAttachmentStoreOp" [
  "    VK_ATTACHMENT_STORE_OP_STORE = 0,",
  "    VK_ATTACHMENT_STORE_OP_DONT_CARE = 1,",
  "  // Provided by VK_VERSION_1_3",
  "    VK_ATTACHMENT_STORE_OP_NONE = 1000301000,",
  "  // Provided by VK_KHR_dynamic_rendering, VK_KHR_load_store_op_none",
  "    VK_ATTACHMENT_STORE_OP_NONE_KHR = VK_ATTACHMENT_STORE_OP_NONE,",
  "  // Provided by VK_QCOM_render_pass_store_ops",
  "    VK_ATTACHMENT_STORE_OP_NONE_QCOM = VK_ATTACHMENT_STORE_OP_NONE,",
  "  // Provided by VK_EXT_load_store_op_none",
  "    VK_ATTACHMENT_STORE_OP_NONE_EXT = VK_ATTACHMENT_STORE_OP_NONE,"]

def colorSpaceText : String := textOf "VK_KHR_surface" "VkColorSpaceKHR" [
  "    VK_COLOR_SPACE_SRGB_NONLINEAR_KHR = 0,",
  "  // Provided by VK_EXT_swapchain_colorspace",
  "    VK_COLOR_SPACE_DISPLAY_P3_NONLINEAR_EXT = 1000104001,",
  "  // Provided by VK_EXT_swapchain_colorspace",
  "    VK_COLOR_SPACE_EXTENDED_SRGB_LINEAR_EXT = 1000104002,",
  "  // Provided by VK_EXT_swapchain_colorspace",
  "    VK_COLOR_SPACE_DISPLAY_P3_LINEAR_EXT = 1000104003,",
  "  // Provided by VK_EXT_swapchain_colorspace",
  "    VK_COLOR_SPACE_DCI_P3_NONLINEAR_EXT = 1000104004,",
  "  // Provided by VK_EXT_swapchain_colorspace",
  "    VK_COLOR_SPACE_BT709_LINEAR_EXT = 1000104005,",
  "  // Provided by VK_EXT_swapchain_colorspace",
  "    VK_COLOR_SPACE_BT709_NONLINEAR_EXT = 1000104006,",
  "  // Provided by VK_EXT_swapchain_colorspace",
  "    VK_COLOR_SPACE_BT2020_LINEAR_EXT = 1000104007,",
  "  // Provided by VK_EXT_swapchain_colorspace",
  "    VK_COLOR_SPACE_HDR10_ST2084_EXT = 1000104008,",
  "  // Provided by VK_EXT_swapchain_colorspace",
  "  // VK_COLOR_SPACE_DOLBYVISION_EXT is deprecated, but no reason was given in the API XML",
  "    VK_COLOR_SPACE_DOLBYVISION_EXT = 1000104009,",
  "  // Provided by VK_EXT_swapchain_colorspace",
  "    VK_COLOR_SPACE_HDR10_HLG_EXT = 1000104010,",
  "  // Provided by VK_EXT_swapchain_colorspace",
  "    VK_COLOR_SPACE_ADOBERGB_LINEAR_EXT = 1000104011,",
  "  // Provided by VK_EXT_swapchain_colorspace",
  "    VK_COLOR_SPACE_ADOBERGB_NONLINEAR_EXT = 1000104012,",
  "  // Provided by VK_EXT_swapchain_colorspace",
  "    VK_COLOR_SPACE_PASS_THROUGH_EXT = 1000104013,",
  "  // Provided by VK_EXT_swapchain_colorspace",
  "    VK_COLOR_SPACE_EXTENDED_SRGB_NONLINEAR_EXT = 1000104014,",
  "  // Provided by VK_AMD_display_native_hdr",
  "    VK_COLOR_SPACE_DISPLAY_NATIVE_AMD = 1000213000,",
  "  // VK_COLORSPACE_SRGB_NONLINEAR_KHR is a deprecated alias",
  "    VK_COLORSPACE_SRGB_NONLINEAR_KHR = VK_COLOR_SPACE_SRGB_NONLINEAR_KHR,",
  "  // Provided by VK_EXT_swapchain_colorspace",
  "  // VK_COLOR_SPACE_DCI_P3_LINEAR_EXT is a deprecated alias",
  "    VK_COLOR_SPACE_DCI_P3_LINEAR_EXT = VK_COLOR_SPACE_DISPLAY_P3_LINEAR_EXT,"]

def imageAspectText : String := textOf "VK_VERSION_1_0" "VkImageAspectFlagBits" [
  "    VK_IMAGE_ASPECT_COLOR_BIT = 0x00000001,",
  "    VK_IMAGE_ASPECT_DEPTH_BIT = 0x00000002,",
  "    VK_IMAGE_ASPECT_STENCIL_BIT = 0x00000004,",
  "    VK_IMAGE_ASPECT_METADATA_BIT = 0x00000008,",
  "  // Provided by VK_VERSION_1_1",
  "    VK_IMAGE_ASPECT_PLANE_0_BIT = 0x00000010,",
  "  // Provided by VK_VERSION_1_1",
  "    VK_IMAGE_ASPECT_PLANE_1_BIT = 0x00000020,",
  "  // Provided by VK_VERSION_1_1",
  "    VK_IMAGE_ASPECT_PLANE_2_BIT = 0x00000040,",
  "  // Provided by VK_VERSION_1_3",
  "    VK_IMAGE_ASPECT_NONE = 0,",
  "  // Provided by VK_EXT_image_drm_format_modifier",
  "    VK_IMAGE_ASPECT_MEMORY_PLANE_0_BIT_EXT = 0x00000080,",
  "  // Provided by VK_EXT_image_drm_format_modifier",
  "    VK_IMAGE_ASPECT_MEMORY_PLANE_1_BIT_EXT = 0x00000100,",
  "  // Provided by VK_EXT_image_drm_format_modifier",
  "    VK_IMAGE_ASPECT_MEMORY_PLANE_2_BIT_EXT = 0x00000200,",
  "  // Provided by VK_EXT_image_drm_format_modifier",
  "    VK_IMAGE_ASPECT_MEMORY_PLANE_3_BIT_EXT = 0x00000400,",
  "  // Provided by VK_KHR_sampler_ycbcr_conversion",
  "    VK_IMAGE_ASPECT_PLANE_0_BIT_KHR = VK_IMAGE_ASPECT_PLANE_0_BIT,",
  "  // Provided by VK_KHR_sampler_ycbcr_conversion",
  "    VK_IMAGE_ASPECT_PLANE_1_BIT_KHR = VK_IMAGE_ASPECT_PLANE_1_BIT,",
  "  // Provided by VK_KHR_sampler_ycbcr_conversion",
  "    VK_IMAGE_ASPECT_PLANE_2_BIT_KHR = VK_IMAGE_ASPECT_PLANE_2_BIT,",
  "  // Provided by VK_KHR_maintenance4",
  "    VK_IMAGE_ASPECT_NONE_KHR = VK_IMAGE_ASPECT_NONE,"]

def imageViewFlagText : String := textOf "VK_VERSION_1_0" "VkImageViewCreateFlagBits" [
  "  // Provided by VK_EXT_fragment_density_map",
  "    VK_IMAGE_VIEW_CREATE_FRAGMENT_DENSITY_MAP_DYNAMIC_BIT_EXT = 0x00000001,",
  "  // Provided by VK_EXT_descriptor_buffer",
  "    VK_IMAGE_VIEW_CREATE_DESCRIPTOR_BUFFER_CAPTURE_REPLAY_BIT_EXT = 0x00000004,",
  "  // Provided by VK_EXT_fragment_density_map2",
  "    VK_IMAGE_VIEW_CREATE_FRAGMENT_DENSITY_MAP_DEFERRED_BIT_EXT = 0x00000002,"]

def presentModeText : String := textOf "VK_KHR_surface" "VkPresentModeKHR" [
  "    VK_PRESENT_MODE_IMMEDIATE_KHR = 0,",
  "    VK_PRESENT_MODE_MAILBOX_KHR = 1,",
  "    VK_PRESENT_MODE_FIFO_KHR = 2,",
  "    VK_PRESENT_MODE_FIFO_RELAXED_KHR = 3,",
  "  // Provided by VK_KHR_shared_presentable_image",
  "    VK_PRESENT_MODE_SHARED_DEMAND_REFRESH_KHR = 1000111000,",
  "  // Provided by VK_KHR_shared_presentable_image",
  "    VK_PRESENT_MODE_SHARED_CONTINUOUS_REFRESH_KHR = 1000111001,",
  "  // Provided by VK_EXT_present_mode_fifo_latest_ready",
  "    VK_PRESENT_MODE_FIFO_LATEST_READY_EXT = 1000361000,"]

def swapchainFlagText : String := textOf "VK_KHR_swapchain" "VkSwapchainCreateFlagBitsKHR" [
  "  // Provided by VK_VERSION_1_1 with VK_KHR_swapchain, VK_KHR_device_group with VK_KHR_swapchain",
  "    VK_SWAPCHAIN_CREATE_SPLIT_INSTANCE_BIND_REGIONS_BIT_KHR = 0x00000001,",
  "  // Provided by VK_VERSION_1_1 with VK_KHR_swapchain",
  "    VK_SWAPCHAIN_CREATE_PROTECTED_BIT_KHR = 0x00000002,",
  "  // Provided by VK_KHR_swapchain_mutable_format",
  "    VK_SWAPCHAIN_CREATE_MUTABLE_FORMAT_BIT_KHR = 0x00000004,",
  "  // Provided by VK_EXT_swapchain_maintenance1",
  "    VK_SWAPCHAIN_CREATE_DEFERRED_MEMORY_ALLOCATION_BIT_EXT = 0x00000008,",
  "  // Provided by VK_KHR_present_id2",
  "    VK_SWAPCHAIN_CREATE_PRESENT_ID_2_BIT_KHR = 0x00000040,",
  "  // Provided by VK_KHR_present_wait2",
  "    VK_SWAPCHAIN_CREATE_PRESENT_WAIT_2_BIT_KHR = 0x00000080,"]

/-- All shipped texts, each with the name of its source. -/
def texts : List (String × String) := [
  ("accel_flags.h", accelerationFlagText),
  ("attachment_load_op.h", loadOpText),
  ("attachment_store_op.h", storeOpText),
  ("color_space.h", colorSpaceText),
  ("image_aspects.h", imageAspectText),
  ("image_view_flags.h", imageViewFlagText),
  ("present_mode.h", presentModeText),
  ("swapchain_flags.h", swapchainFlagText)]

end ConstantCatalog.Shipped
