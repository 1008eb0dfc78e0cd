import BoruixKernel.Lib.SearchTree
import BoruixKernel.Mm.Mapper

/-!
# The VMA tree

The tree of memory areas of an address space: a treap keyed by the start of an
area, with priorities from a hash of the key and the largest end address cached in
every node.  The functions follow the source.  An `Option<Box<IntervalNode>>` is a
`BinaryTree IntervalNode`, and a loop that walks down the tree is a recursion with
the loop's variables as arguments.

The insertion loop removes a neighbour and goes round again, so it runs at most
once for each node and once more.  It is written with that bound as fuel, and
`insertLoop` returns `none` when the fuel does not suffice.
-/

namespace BoruixKernel

/-! ## Areas and nodes -/

/-- What an area is backed by. -/
inductive Backing where
  | Anonymous
  | File
deriving DecidableEq, Repr

/-- A virtual memory area `[start, end)` with its access flags. -/
structure MemoryArea where
  start : VirtAddr
  «end» : VirtAddr
  flags : PageTableFlags
  backing : Backing
deriving DecidableEq

/-- An anonymous area. -/
def MemoryArea.new (start stop : VirtAddr) (flags : PageTableFlags) : MemoryArea :=
  ⟨start, stop, flags, .Anonymous⟩

def MemoryArea.contains (a : MemoryArea) (addr : VirtAddr) : Bool :=
  addr.asU64 ≥ a.start.asU64 && addr.asU64 < a.end.asU64

/-- A node of the tree without its children. -/
structure IntervalNode where
  key : UInt64
  area : MemoryArea
  maxEnd : UInt64
  prio : UInt64
deriving DecidableEq

/-- A tree of nodes. -/
abbrev Link := BinaryTree IntervalNode

/-- The hash that gives a node its priority. -/
def splitmix64 (x : UInt64) : UInt64 :=
  let x := x + 0x9E3779B97F4A7C15
  let z := x
  let z := (z ^^^ (z >>> 30)) * 0xBF58476D1CE4E5B9
  let z := (z ^^^ (z >>> 27)) * 0x94D049BB133111EB
  z ^^^ (z >>> 31)

/-- A node for an area, without children. -/
def IntervalNode.new (area : MemoryArea) : IntervalNode where
  key := area.start.asU64
  area := area
  maxEnd := area.end.asU64
  prio := splitmix64 area.start.asU64

/-- The larger of `m` and the `max_end` of a child. -/
def childMax (child : Link) (m : UInt64) : UInt64 :=
  match child with
  | .node c _ _ => if c.maxEnd > m then c.maxEnd else m
  | .nil => m

/-- A node with its `max_end` recomputed from its children. -/
def IntervalNode.recalc (n : IntervalNode) (left right : Link) : IntervalNode :=
  { n with maxEnd := childMax right (childMax left n.area.end.asU64) }

/-- Join two trees, every key of the first below every key of the second. -/
def merge : Link → Link → Link
  | .nil, r => r
  | l, .nil => l
  | .node l ll lr, .node r rl rr =>
    if l.prio ≥ r.prio then
      let right := merge lr (.node r rl rr)
      .node (l.recalc ll right) ll right
    else
      let left := merge (.node l ll lr) rl
      .node (r.recalc left rr) left rr
termination_by a b => a.numNodes + b.numNodes
decreasing_by all_goals simp only [BinaryTree.numNodes]; omega

/-- Cut a tree into the keys below `key` and the keys from `key` on. -/
def split : Link → UInt64 → Link × Link
  | .nil, _ => (.nil, .nil)
  | .node n left right, key =>
    if key ≤ n.key then
      let (l, r) := split left key
      (l, .node (n.recalc r right) r right)
    else
      let (l, r) := split right key
      (.node (n.recalc left l) left l, r)

def insertNode (root : Link) (node : IntervalNode) : Link :=
  match root with
  | .nil => .node node .nil .nil
  | root =>
    let (l, r) := split root node.key
    let merged := merge l (.node node .nil .nil)
    merge merged r

def rootArea : Link → Option MemoryArea
  | .nil => none
  | .node n _ _ => some n.area

def removeNode (root : Link) (key : UInt64) : Link × Option MemoryArea :=
  let (l, r) := split root key
  if key = 0xffffffffffffffff then (l, rootArea r)
  else
    let (mid, r2) := split r (key + 1)
    (merge l r2, rootArea mid)

/-! ## Lookups -/

/-- The loop of `find_prev`, with the best area so far. -/
def findPrevFrom (key : UInt64) : Link → Option MemoryArea → Option MemoryArea
  | .nil, res => res
  | .node n left right, res =>
    if key < n.key then findPrevFrom key left res else findPrevFrom key right (some n.area)

/-- The area with the greatest start at or below `key`. -/
def findPrev (root : Link) (key : UInt64) : Option MemoryArea := findPrevFrom key root none

/-- The loop of `find_next`, with the best area so far. -/
def findNextFrom (key : UInt64) : Link → Option MemoryArea → Option MemoryArea
  | .nil, res => res
  | .node n left right, res =>
    if key ≤ n.key then findNextFrom key left (some n.area) else findNextFrom key right res

/-- The area with the least start at or above `key`. -/
def findNext (root : Link) (key : UInt64) : Option MemoryArea := findNextFrom key root none

/-- Whether a left child reaches beyond `addr`. -/
def reachesBeyond (child : Link) (addr : UInt64) : Bool :=
  match child with
  | .node c _ _ => c.maxEnd > addr
  | .nil => false

def findContaining : Link → UInt64 → Option MemoryArea
  | .nil, _ => none
  | .node n left right, addr =>
    if reachesBeyond left addr then findContaining left addr
    else if addr < n.area.start.asU64 then findContaining right addr
    else if addr ≥ n.area.end.asU64 then findContaining right addr
    else some n.area

/-- The size of a traversal stack: what is left to visit. -/
def stackSize (stack : List (IntervalNode × Link)) : Nat :=
  (stack.map fun f => 2 * f.2.numNodes + 1).sum

/-- The in-order traversal with its explicit stack of pending nodes. -/
def forEachInOrder : Link → List (IntervalNode × Link) → List MemoryArea
  | .node n left right, stack => forEachInOrder left ((n, right) :: stack)
  | .nil, (n, right) :: stack => n.area :: forEachInOrder right stack
  | .nil, [] => []
termination_by cur stack => 2 * cur.numNodes + stackSize stack
decreasing_by
  · simp only [BinaryTree.numNodes, stackSize, List.map_cons, List.sum_cons]; omega
  · simp only [BinaryTree.numNodes, stackSize, List.map_cons, List.sum_cons]; omega

/-! ## The tree -/

structure VmaTree where
  root : Link
deriving DecidableEq

namespace VmaTree

def new : VmaTree := ⟨.nil⟩

/-- One half of a round of the insertion loop: what the neighbour `prev` does to the
tree and the area.  `none` is a rejected overlap, the flag says whether `prev` was
merged in. -/
def absorbPrev (root : Link) (area : MemoryArea) : Option (Link × MemoryArea × Bool) :=
  match findPrev root area.start.asU64 with
  | none => some (root, area, false)
  | some prev =>
    if prev.end.asU64 > area.start.asU64 then none
    else if prev.end.asU64 = area.start.asU64 ∧ prev.flags = area.flags then
      some ((removeNode root prev.start.asU64).1, { area with start := prev.start }, true)
    else some (root, area, false)

/-- The other half, for the neighbour `next`. -/
def absorbNext (root : Link) (area : MemoryArea) : Option (Link × MemoryArea × Bool) :=
  match findNext root area.start.asU64 with
  | none => some (root, area, false)
  | some next =>
    if next.start.asU64 < area.end.asU64 then none
    else if next.start.asU64 = area.end.asU64 ∧ next.flags = area.flags then
      some ((removeNode root next.start.asU64).1, { area with «end» := next.end }, true)
    else some (root, area, false)

/-- The insertion loop.  A rejection keeps the nodes already removed out of the
tree, as the source does. -/
def insertLoop : Nat → Link → MemoryArea → Option (Except MapError MemoryArea × Link)
  | 0, _, _ => none
  | fuel + 1, root, area =>
    match absorbPrev root area with
    | none => some (.error .InvalidAccess, root)
    | some (root1, area1, merged1) =>
      match absorbNext root1 area1 with
      | none => some (.error .InvalidAccess, root1)
      | some (root2, area2, merged2) =>
        if merged1 || merged2 then insertLoop fuel root2 area2
        else some (.ok area2, root2)

/-- Insert an area, merging it with adjacent areas of equal flags. -/
def insertArea (t : VmaTree) (area : MemoryArea) : Except MapError Unit × VmaTree :=
  if area.start.asU64 ≥ area.end.asU64 then (.error .InvalidAccess, t)
  else
    match insertLoop (t.root.numNodes + 1) t.root area with
    | none => (.error .InvalidAccess, t)
    | some (.error e, root) => (.error e, ⟨root⟩)
    | some (.ok area, root) => (.ok (), ⟨insertNode root (.new area)⟩)

/-- The areas in the order `for_each_in_order` visits them. -/
def areasInOrder (t : VmaTree) : List MemoryArea := forEachInOrder t.root []

end VmaTree

end BoruixKernel
