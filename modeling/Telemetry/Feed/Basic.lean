import Telemetry.Row
import Telemetry.Error

/-!
# Feeds

A feed is what a producer of rows hands out, one item at a time: rows, and errors in place of
rows. After its last item a feed hands out nothing any more.
-/

namespace Telemetry

/-- Rows and errors in the order in which they are handed out. -/
abbrev Feed (α : Type) := List (Except QueryError (Row α))

namespace Feed

variable {α β σ : Type}

def ofRows (rows : List (Row α)) : Feed α :=
  rows.map .ok

/-- What is seen by a reader that stops at the first error, which is the last item seen. -/
def untilError : Feed α → Feed α
  | [] => []
  | .ok row :: rest => .ok row :: untilError rest
  | .error e :: _ => [.error e]

/-- All rows, or the first error. -/
def collect : Feed α → Except QueryError (List (Row α))
  | [] => .ok []
  | .ok row :: rest => (collect rest).map (row :: ·)
  | .error e :: _ => .error e

/-- What `n` requests are answered with; `none` stands for the end. -/
def pulls (feed : Feed α) (n : Nat) : List (Option (Except QueryError (Row α))) :=
  (List.range n).map (feed[·]?)

/-- Turns every row into another, or into an error. -/
def mapRows (f : Row α → Except QueryError (Row β)) (feed : Feed α) : Feed β :=
  feed.map (·.bind f)

/-- Turns every row into another and carries along what has been seen so far. Errors pass through
and leave no trace. -/
def scanRows (f : σ → Row α → Row β × σ) : σ → Feed α → Feed β
  | _, [] => []
  | s, .ok row :: rest => .ok (f s row).1 :: scanRows f (f s row).2 rest
  | s, .error e :: rest => .error e :: scanRows f s rest

/-- The items that a producer in state `s` hands out on at most `n` requests. -/
def unfold (next? : σ → Option (Except QueryError (Row α) × σ)) : Nat → σ → Feed α
  | 0, _ => []
  | n + 1, s =>
    match next? s with
    | none => []
    | some (item, s') => item :: unfold next? n s'

/-- Whether the item is the end of a run that was abandoned. -/
def abandons : Except QueryError (Row α) → Bool
  | .error (.abandoned _) => true
  | _ => false

/-- The items that a producer in state `s` hands out, if it is asked until it has come to its end.
The run is abandoned if it is not finished after `n` requests. -/
def run (next? : σ → Option (Except QueryError (Row α) × σ)) : Nat → σ → Feed α
  | 0, s => if (next? s).isSome then [.error (.abandoned .unfinished)] else []
  | n + 1, s =>
    match next? s with
    | none => []
    | some (item, s') => if abandons item then [item] else item :: run next? n s'

/-- Takes the first element with a property out of a list. The last one moves to its place. -/
def swapRemove (p : β → Bool) (l : List β) : List β :=
  match l.findIdx? p, l.getLast? with
  | some i, some last => (l.set i last).dropLast
  | _, _ => l

end Feed

end Telemetry
