import Telemetry.Feed.Basic

/-!
# Stored samples

A store keeps samples by resource and instant: the resources in order, and for each of them its
rows in order. A sample takes the place of one of the same name at the same instant.
-/

namespace Telemetry

/-- The rows of one resource, ascending. -/
structure Series where
  resource : String
  rows : List (Row Value)

/-- Samples by resource and instant. -/
structure Store where
  series : List Series

namespace Store

def empty : Store := ⟨[]⟩

/-- Puts a sample into the row of its instant, or into a row of its own. -/
def placeInRows (s : Sample) : List (Row Value) → List (Row Value)
  | [] => [(Row.empty s.timestamp s.resource).insert s]
  | row :: rest =>
    if s.timestamp < row.timestamp then (Row.empty s.timestamp s.resource).insert s :: row :: rest
    else if row.timestamp < s.timestamp then row :: placeInRows s rest
    else row.insert s :: rest

/-- Puts a sample among the rows of its resource. -/
def placeInSeries (s : Sample) : List Series → List Series
  | [] => [⟨s.resource, placeInRows s []⟩]
  | x :: rest =>
    if s.resource < x.resource then ⟨s.resource, placeInRows s []⟩ :: x :: rest
    else if s.resource = x.resource then ⟨x.resource, placeInRows s x.rows⟩ :: rest
    else x :: placeInSeries s rest

def insert (store : Store) (s : Sample) : Store :=
  ⟨placeInSeries s store.series⟩

def insertAll (store : Store) (samples : List Sample) : Store :=
  samples.foldl insert store

/-- The resources with a sample, in order. -/
def resources (store : Store) : List String :=
  store.series.map (·.resource)

/-- The number of samples. -/
def size (store : Store) : Nat :=
  ((store.series.flatMap (·.rows)).map Row.size).foldl (· + ·) 0

/-- The rows of a resource. -/
def rows (store : Store) (resource : String) : List (Row Value) :=
  match store.series.find? (·.resource = resource) with
  | some x => x.rows
  | none => []

/-- The rows of a resource from `start` to `finish`, both included. -/
def select (store : Store) (resource : String) (start finish : Timestamp) : List (Row Value) :=
  (store.rows resource).filter fun row => start ≤ row.timestamp && row.timestamp ≤ finish

end Store

end Telemetry
