import Mathlib.Data.Int.Basic
import TamuProofs.Lib.Bytes
import TamuProofs.Lib.Dll

/-!
# The page cache of the proxy (`query_cache.cpp`, `proxy.cpp`)

The cache is a doubly linked list of nodes in the heap, the page used last at the head, and a count.  The
functions of `query_cache` are translated one by one; a function has no result (`none`) where the code would
go through a dangling or a null pointer, or round a cycle.  `Heap.unlink` is the code that `remove` and
`check_cache` have in common.

`QueryCache.request` is what the proxy does to the cache for one GET request, and `QueryCache.refresh` what it
does when the page is fetched whatever the cache says.  A request brings along what it does not determine: the
clock, the Expires header of the response, and the address that `new` picks.

A `char *` is the string it points to.  The texts that `strftime` makes are only printed or stored in `accessed`,
which nobody reads; `accessed` holds the time itself.  A request that ends the process is not modelled.
-/

namespace TamuProofs.Proxy

open TamuProofs.Lib

def cachesize : ℕ := 10

structure RequestInfo where
  address : Bytes
  resource : Bytes
  expires : ℤ
  accessed : ℤ

def RequestInfo.page (r : RequestInfo) : Bytes × Bytes := (r.address, r.resource)

structure QueryCache where
  heap : Heap RequestInfo
  head : Option ℕ
  currCacheSize : ℤ

def QueryCache.new : QueryCache := { heap := Heap.empty, head := none, currCacheSize := 0 }

/-- Both `strcmp` give 0. -/
def isPage (address resource : Bytes) (r : RequestInfo) : Bool :=
  decide (r.address = address) && decide (r.resource = resource)

/-- The node of a page, as the `while` loops look for it. -/
def QueryCache.lookup (c : QueryCache) (address resource : Bytes) : Option (Option ℕ) :=
  c.heap.find (isPage address resource) (c.heap.brk + 1) c.head

/-- `query_cache::dequeue`.  The node that is deleted is the one after `cachesize - 1` times `next`. -/
def QueryCache.dequeue (c : QueryCache) : Option QueryCache :=
  match c.head with
  | none => some c
  | some _ =>
    match c.heap.nth (cachesize - 1) c.head with
    | none => none
    | some none => none
    | some (some curr) =>
      match c.heap.modify curr fun n => { n with next := none } with
      | none => none
      | some heap => some { c with heap := heap.del curr, currCacheSize := c.currCacheSize - 1 }

/-- A new node on top, at the address that `new` picks, and the count. -/
def QueryCache.push (c : QueryCache) (req : RequestInfo) (node : ℕ) : Option QueryCache :=
  let curr := c.heap.fresh node
  let pushed : Option (Heap RequestInfo) :=
    match c.head with
    | none => some (c.heap.put curr { val := req, next := none, prev := none })
    | some head =>
      (c.heap.put curr { val := req, next := some head, prev := none }).modify head
        fun n => { n with prev := some curr }
  match pushed with
  | none => none
  | some heap => some { heap := heap, head := some curr, currCacheSize := c.currCacheSize + 1 }

/-- `query_cache::enqueue`, with the time now. -/
def QueryCache.enqueue (c : QueryCache) (address resource : Bytes) (expires now : ℤ) (node : ℕ) :
    Option QueryCache :=
  match c.push { address := address, resource := resource, expires := expires, accessed := now } node with
  | none => none
  | some c => if c.currCacheSize = cachesize + 1 then c.dequeue else some c

def QueryCache.remove (c : QueryCache) (address resource : Bytes) : Option QueryCache :=
  match c.lookup address resource with
  | none => none
  | some none => some c
  | some (some curr) =>
    match c.heap.unlink c.head curr with
    | none => none
    | some (heap, head) => some { heap := heap.del curr, head := head, currCacheSize := c.currCacheSize - 1 }

/-- `query_cache::check_cache`, where `present` is what `mktime(gmtime(..))` makes of the time of the check and
`now` the time that is stored in an expired node.  An expired node is taken out of the list and not deleted. -/
def QueryCache.checkCache (c : QueryCache) (address resource : Bytes) (present now : ℤ) :
    Option (ℕ × QueryCache) :=
  match c.lookup address resource with
  | none => none
  | some none => some (2, c)
  | some (some curr) =>
    match c.heap.cell curr with
    | none => none
    | some n =>
      if n.val.expires < present then
        match (c.heap.put curr { n with val := { n.val with expires := now } }).unlink c.head curr with
        | none => none
        | some (heap, head) => some (1, { heap := heap, head := head, currCacheSize := c.currCacheSize - 1 })
      else some (0, c)

def QueryCache.isCacheExist (c : QueryCache) (address resource : Bytes) : Option Bool :=
  (c.lookup address resource).map Option.isSome

/-! ### Requests -/

/-- A GET request for a page, and what it meets: the clock when the cache is checked, when an expired node is
marked and when the page is stored, the Expires time of the response, and the address of the new node. -/
structure Request where
  address : Bytes
  resource : Bytes
  present : ℤ
  marked : ℤ
  stored : ℤ
  expires : ℤ
  node : ℕ

def Request.page (r : Request) : Bytes × Bytes := (r.address, r.resource)

/-- `proxy::recv_from_srvr`, once the response is there. -/
def QueryCache.recvFromSrvr (c : QueryCache) (r : Request) (conditionFlag : ℕ) : Option QueryCache :=
  let removed := if conditionFlag = 0 ∨ conditionFlag = 2 then c.remove r.address r.resource else some c
  match removed with
  | none => none
  | some c => c.enqueue r.address r.resource r.expires r.stored r.node

def QueryCache.getRequestPage (c : QueryCache) (r : Request) (conditionFlag : ℕ) : Option QueryCache :=
  if conditionFlag = 0 then
    match c.isCacheExist r.address r.resource with
    | none => none
    | some true => some c
    | some false => c.recvFromSrvr r conditionFlag
  else c.recvFromSrvr r conditionFlag

/-- The part of `proxy::recv_from_clnt` that handles a GET request. -/
def QueryCache.request (c : QueryCache) (r : Request) : Option QueryCache :=
  match c.checkCache r.address r.resource r.present r.marked with
  | none => none
  | some (conditionFlag, c) => c.getRequestPage r conditionFlag

/-- `check_cache`, then `remove` when the flag is 0 or 2, then `enqueue`. -/
def QueryCache.refresh (c : QueryCache) (r : Request) : Option QueryCache :=
  match c.checkCache r.address r.resource r.present r.marked with
  | none => none
  | some (conditionFlag, c) => c.recvFromSrvr r conditionFlag

end TamuProofs.Proxy
