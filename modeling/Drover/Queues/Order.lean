import Drover.Foundation.Map
import Drover.Foundation.Select
import Drover.Go.Slice
import Drover.Go.Strings
import Drover.Memdriver.Claims
import Drover.Scheduler.Loop

set_option autoImplicit false

/-!
# Weighted queues (`queues.go`)

`checkedQueues` makes the list of queues a client works from its configuration, and
`weightedOrder` draws the order in which a round tries them.  The slices that a call is
given to reuse are windows into arrays of whatever contents, and `rand.Int64N` may return
any value below its argument; the set a value is drawn from is noted at each draw, which
nothing reads.
-/

namespace Drover.Queues

open Drover.Foundation
open Drover.Go (Heap Slice)
open Drover.Scheduler (defaultQueue)
open Drover.Memdriver (compareText)

/-! ## The configured queues -/

/-- `maxQueueWeight`. -/
def maxQueueWeight : Int64 := 100000

/-- `weightedQueue`. -/
structure WeightedQueue where
  name : Bytes
  weight : Int64
  deriving DecidableEq, Repr, Inhabited

/-- The weight a queue gets. -/
def clampWeight (weight : Int64) : Int64 :=
  if weight < 1 then 1 else if weight > maxQueueWeight then maxQueueWeight else weight

/-- `checkedQueues`; `none` is the panic about an empty name. -/
def checkedQueues (visit : Visit (Bytes × Int64)) (queues : Map Bytes Int64) :
    Option (List WeightedQueue) :=
  if queues.rows.length = 0 then some [⟨defaultQueue, 1⟩]
  else
    let rows := visit.order queues.rows
    if rows.any (fun row => row.1 = []) then none
    else
      some ((rows.map fun row => ⟨row.1, clampWeight row.2⟩).insertionSort
        fun a b => compareText a.name b.name ≠ .gt)

/-! ## The order of a round -/

/-- The arrays behind slices of names and of queues. -/
structure Memory where
  names : Heap Bytes
  queues : Heap WeightedQueue

/-- A draw: the queues that are left and the total it is made with. -/
structure Draw where
  remaining : List WeightedQueue
  total : Int64

/-- What `weightedOrder` returns, with the draws it made. -/
structure Ordered where
  memory : Memory
  dst : Slice
  scratch : Slice
  draws : List Draw

/-- The running total of the weights. -/
def sumWeights (qs : List WeightedQueue) : Int64 := qs.foldl (fun total q => total + q.weight) 0

/-- The loop that looks for the queue a value falls on, from index `i` on. -/
def findFrom (pick : Int64) : Nat → Int64 → List WeightedQueue → Option Nat
  | _, _, [] => none
  | i, acc, q :: qs => if pick < acc + q.weight then some i else findFrom pick (i + 1) (acc + q.weight) qs

/-- The index a value falls on, if the loop stops at one. -/
def find (remaining : List WeightedQueue) (pick : Int64) : Option Nat := findFrom pick 0 0 remaining

/-- `rand.Int64N(n)`, which panics unless `n` is positive; `seed` stands for the generator. -/
def int64N (seed : Nat) (n : Int64) : Option Int64 :=
  if n ≤ 0 then none else some (Int64.ofInt (seed % n.toInt))

/-- The loop of `weightedOrder` over `base[:n]`, the queues that are left.  The `k`-th draw is
made with `seeds k`, and `spare` is how much room a grown array gets. -/
def orderLoop (spare : Nat → Nat) (seeds : Nat → Nat) (base : Slice) :
    Nat → Nat → Memory → Slice → Int64 → Option Ordered
  | 0, _, memory, dst, _ => some ⟨memory, dst, base.upTo 0, []⟩
  | n + 1, k, memory, dst, total =>
      let remaining := memory.queues.read (base.upTo (n + 1))
      (int64N (seeds k) total).bind fun pick =>
        let idx := (find remaining pick).getD n
        remaining[idx]?.bind fun chosen =>
          remaining[n]?.bind fun last =>
            let names := memory.names.append spare dst [chosen.name]
            let queues := memory.queues.set (base.upTo (n + 1)) idx last
            (orderLoop spare seeds base n (k + 1) ⟨names.1, queues⟩ names.2
              (total - chosen.weight)).map
              fun out => { out with draws := ⟨remaining, total⟩ :: out.draws }

/-- `weightedOrder`; `none` is a panic. -/
def weightedOrder (spare : Nat → Nat) (seeds : Nat → Nat) (memory : Memory)
    (qs dst scratch : Slice) : Option Ordered :=
  let dst := dst.upTo 0
  let scratch := scratch.upTo 0
  match memory.queues.read qs with
  | [] => some ⟨memory, dst, scratch, []⟩
  | [q] =>
      let names := memory.names.append spare dst [q.name]
      some ⟨{ memory with names := names.1 }, names.2, scratch, []⟩
  | q :: rest =>
      let queues := memory.queues.append spare scratch (q :: rest)
      orderLoop spare seeds queues.2 queues.2.len 0 { memory with queues := queues.1 } dst
        (sumWeights (q :: rest))

end Drover.Queues
