/-!
# Consecutive chunks

A list cut into consecutive chunks of a given length, the last one possibly shorter: the rows of
an array, the pixels of a buffer, the lines of a report.

Main definitions: `chunks`.
-/

namespace CommonLut

/-- The chunks of a list, after those in `done`, last one first. -/
def chunksOnto {α : Type} (done : List (List α)) (size : Nat) : List α → List (List α)
  | [] => done.reverse
  | x :: rest =>
    if size = 0 then done.reverse
    else chunksOnto ((x :: rest).take size :: done) size ((x :: rest).drop size)
termination_by xs => xs.length
decreasing_by grind

/-- The chunks of `size` elements; there are none of size zero. -/
def chunks {α : Type} (size : Nat) (xs : List α) : List (List α) :=
  chunksOnto [] size xs

end CommonLut
