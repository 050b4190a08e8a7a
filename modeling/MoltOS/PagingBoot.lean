import MoltOS.PagingMapper

/-! The mappings that `kernel_main` adds: the heap, the text buffer and the framebuffer. -/
namespace MoltOS.Paging
open MoltOS.Rust MoltOS.Frames MoltOS.NodeTree
open MoltOS.Allocator (heapStart heapSize)

variable {p : Profile} {cr3 : PhysFrame} {mapTo : MapTo} {data data' : List PhysFrame} {s t u : State}
  {pages pages' : List VirtAddr} {m n : Nat}

section Pages

end Pages

section Addresses
variable {a page : VirtAddr} {f : PhysFrame} {x y : Tables}

end Addresses

end MoltOS.Paging
