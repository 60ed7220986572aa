/-
PointPatch/Stream/Demand.lean

How much content is asked for at a time when all of it is wanted and nobody
knows how much that is.

At first a few bytes are asked for, to see whether there are any.  What comes
is kept in a buffer, and each time as much is asked for as it has room for; a
full buffer is doubled.  No more than a certain step is asked for at once, and
a step that comes in full doubles the step.

A request may be answered bit by bit, and may be ended before all of it has
come.
-/

namespace PointPatch

/-- The state of asking for content. -/
structure Demand where
  /-- How many bytes came with the requests before. -/
  size : Nat
  /-- How many bytes the buffer can hold; zero during the first request. -/
  capacity : Nat
  /-- The most that is asked for at once. -/
  step : Nat
  /-- How much the present request asks for. -/
  asked : Nat
  /-- How much of that has come. -/
  received : Nat

namespace Demand

/-- How much is asked for at first, and the least that a full buffer grows by. -/
def probe : Nat := 32

/-- The first request, if there is to be no more than `limit` in all. -/
def start (limit : Nat) : Demand := ⟨0, 0, Nat.pow 2 13, min probe limit, 0⟩

/-- How much of the present request is still to come. -/
def room (d : Demand) : Nat := d.asked - d.received

/-- Ends the present request and makes the next one. The buffer for what came first holds eight
bytes at the least. -/
def renew (limit : Nat) (d : Demand) : Demand :=
  let size := d.size + d.received
  let capacity := if d.capacity = 0 then max d.received 8 else d.capacity
  let capacity :=
    if size = capacity then max (2 * capacity) (capacity + probe) else capacity
  let step := if d.received = d.step then 2 * d.step else d.step
  { size, capacity, step, received := 0
    asked := min (min (capacity - size) step) (limit - size) }

/-- Ends a request that has been answered in part. -/
def settle (limit : Nat) (d : Demand) : Demand :=
  if d.received = 0 then d else d.renew limit

/-- Answers one request after another with what lies ready, `n` bytes, each as far as that goes.
A request asks for one byte at the least until there is enough, so `n` bounds their number. -/
def drain (limit : Nat) : Nat → Nat → Demand → Demand
  | 0, _, d => d
  | fuel + 1, n, d =>
    if n = 0 ∨ d.asked = 0 then d
    else
      let now := min n d.asked
      drain limit fuel (n - now) ({ d with received := now }.renew limit)

/-- Answers with `n` bytes. As long as they fit, the present request stays open; what does not fit
lies ready for the next ones. -/
def supply (limit n : Nat) (d : Demand) : Demand :=
  if n ≤ d.room then { d with received := d.received + n }
  else drain limit n (n - d.room) ({ d with received := d.asked }.renew limit)

end Demand

end PointPatch
