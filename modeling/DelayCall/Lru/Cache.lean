import DelayCall.Go.Map

/-!
# The LRU cache, as the code runs it

`LRUCache` (`unnamed/part_001`) keeps its entries in a doubly linked list of
`*Node` between two dummy nodes, `head` on the most recently used side and
`tail` on the least recently used one, and in a Go map from each key to its
node.  The map compares keys with the key type's `==` (`Go.Map`).

Pointers are addresses.  The heap holds one map per field of `Node`, and
`fresh` is the address the next `&Node{}` returns.  A nil pointer is `none`;
following one is a Go panic, and the operation then returns `none`.  Every
operation writes the same fields in the same order as the source.
-/

namespace Lru

/-- An `LRUCache` together with the nodes it can reach. -/
structure LRUCache (K V : Type) [BEq K] where
  capacity : Int
  cache : Go.Map K Nat
  head : Nat
  tail : Nat
  key : Nat -> Option K
  value : Nat -> Option V
  prev : Nat -> Option Nat
  next : Nat -> Option Nat
  fresh : Nat

namespace LRUCache

variable {K V : Type} [BEq K] (c : LRUCache K V)

/-- `p.Next = q`. -/
def setNext (p : Nat) (q : Option Nat) : LRUCache K V :=
  { c with next := Function.update c.next p q }

/-- `p.Prev = q`. -/
def setPrev (p : Nat) (q : Option Nat) : LRUCache K V :=
  { c with prev := Function.update c.prev p q }

section Fields

variable (p : Nat) (q : Option Nat)

@[simp] theorem setNext_next : (c.setNext p q).next = Function.update c.next p q := rfl
@[simp] theorem setNext_prev : (c.setNext p q).prev = c.prev := rfl
@[simp] theorem setNext_key : (c.setNext p q).key = c.key := rfl
@[simp] theorem setNext_value : (c.setNext p q).value = c.value := rfl
@[simp] theorem setNext_cache : (c.setNext p q).cache = c.cache := rfl
@[simp] theorem setNext_head : (c.setNext p q).head = c.head := rfl
@[simp] theorem setNext_tail : (c.setNext p q).tail = c.tail := rfl
@[simp] theorem setNext_fresh : (c.setNext p q).fresh = c.fresh := rfl
@[simp] theorem setNext_capacity : (c.setNext p q).capacity = c.capacity := rfl
@[simp] theorem setPrev_prev : (c.setPrev p q).prev = Function.update c.prev p q := rfl
@[simp] theorem setPrev_next : (c.setPrev p q).next = c.next := rfl
@[simp] theorem setPrev_key : (c.setPrev p q).key = c.key := rfl
@[simp] theorem setPrev_value : (c.setPrev p q).value = c.value := rfl
@[simp] theorem setPrev_cache : (c.setPrev p q).cache = c.cache := rfl
@[simp] theorem setPrev_head : (c.setPrev p q).head = c.head := rfl
@[simp] theorem setPrev_tail : (c.setPrev p q).tail = c.tail := rfl
@[simp] theorem setPrev_fresh : (c.setPrev p q).fresh = c.fresh := rfl
@[simp] theorem setPrev_capacity : (c.setPrev p q).capacity = c.capacity := rfl

end Fields

/-- `NewLRUCache`: the dummy `head` and `tail` are the first two nodes
allocated, linked to each other; a capacity that is not positive panics. -/
def newLRUCache (capacity : Int) : Option (LRUCache K V) :=
  if capacity ≤ 0 then none
  else
    let c : LRUCache K V :=
      ⟨capacity, .empty, 0, 1, fun _ => none, fun _ => none, fun _ => none, fun _ => none, 2⟩
    some ((c.setNext c.head (some c.tail)).setPrev c.tail (some c.head))

/-- `addNode`: link `node` right after `head`. -/
def addNode (node : Nat) : Option (LRUCache K V) := do
  let c := c.setPrev node (some c.head)
  let c := c.setNext node (c.next c.head)
  let first ← c.next c.head
  let c := c.setPrev first (some node)
  pure (c.setNext c.head (some node))

/-- `removeNode`: link the neighbours of `node` to each other. -/
def removeNode (node : Nat) : Option (LRUCache K V) := do
  let prevNode := c.prev node
  let nextNode := c.next node
  let p ← prevNode
  let c := c.setNext p nextNode
  let n ← nextNode
  pure (c.setPrev n prevNode)

/-- `moveToHead`. -/
def moveToHead (node : Nat) : Option (LRUCache K V) := do
  let c ← c.removeNode node
  c.addNode node

/-- `popTail`: unlink the node before `tail` and return it. -/
def popTail : Option (Nat × LRUCache K V) := do
  let lastNode ← c.prev c.tail
  let c ← c.removeNode lastNode
  pure (lastNode, c)

/-- `Get`: the value and `true` on a hit, after moving the node to the head;
`nil, false` on a miss. -/
def get (key : K) : Option ((Option V × Bool) × LRUCache K V) :=
  match c.cache.lookup key with
  | none => some ((none, false), c)
  | some node => do
    let c ← c.moveToHead node
    pure ((c.value node, true), c)

/-- The node `&Node{Key: key, Value: value}` at the next free address. -/
def alloc (key : K) (value : V) : LRUCache K V :=
  { c with
    key := Function.update c.key c.fresh (some key)
    value := Function.update c.value c.fresh (some value)
    prev := Function.update c.prev c.fresh none
    next := Function.update c.next c.fresh none
    fresh := c.fresh + 1 }

/-- The eviction in `Put`: pop the tail node and delete its key. -/
def evict : Option (LRUCache K V) := do
  let (tail, c) ← c.popTail
  pure { c with cache := match c.key tail with
                         | some k => c.cache.erase k
                         | none => c.cache }

/-- `Put`: on a hit, overwrite the value and move the node to the head;
otherwise allocate a node, evict the tail when the map is full, and link the
new node after `head`. -/
def put (key : K) (value : V) : Option (LRUCache K V) :=
  match c.cache.lookup key with
  | some node =>
    ({ c with value := Function.update c.value node (some value) } : LRUCache K V).moveToHead node
  | none => do
    let newNode := c.fresh
    let c := c.alloc key value
    let c ← if (c.cache.len : Int) ≥ c.capacity then c.evict else pure c
    let c ← c.addNode newNode
    pure { c with cache := c.cache.insert key newNode }

/-- `Size`: `len(lru.cache)`. -/
def size : Nat := c.cache.len

/-- The loop of `Keys` from `current`, for at most `fuel` rounds; running out
of fuel stands for a loop that does not stop. -/
def keysFrom : Nat -> Option Nat -> Option (List (Option K))
  | 0, _ => none
  | fuel + 1, current => do
    let cur ← current
    if cur = c.tail then pure []
    else do
      let rest ← keysFrom fuel (c.next cur)
      pure (c.key cur :: rest)

/-- `Keys`, allowed `fuel` rounds of its loop. -/
def keys (fuel : Nat) : Option (List (Option K)) := c.keysFrom fuel (c.next c.head)

/-- `Clear`: a new empty map, and `head` and `tail` linked to each other. -/
def clear : LRUCache K V :=
  (({ c with cache := .empty } : LRUCache K V).setNext c.head (some c.tail)).setPrev c.tail (some c.head)

end LRUCache

end Lru
