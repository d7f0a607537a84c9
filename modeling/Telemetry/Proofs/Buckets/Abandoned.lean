import Mathlib.Data.List.DropRight
import Telemetry.Proofs.Buckets.Consolidated
import Telemetry.Proofs.Feed

/-!
# Abandoned buckets

A request for a bucket takes points out of its input until it can hand out a row, or until it meets
an error. Then the bucket is abandoned, and the next request goes on behind the error with the next
bucket. It begins with no values, so that none that was collected before the error is seen again.
But attributes are reset only when a row is handed out: what abandoned buckets have collected shows
in the next row. And points of an abandoned bucket that stand behind the error are filled into the
next bucket, although they lie before its window.

Once a row was handed out nothing of this is left. Requests that fail before the first bucket was
begun leave nothing behind at all.
-/

namespace Telemetry

/-! ## Input up to an instant -/

namespace Feed

variable {α : Type} {limit : Timestamp} {feed : Feed α}

/-- The feed has ended or goes on with a row behind the limit. -/
def Later (limit : Timestamp) (feed : Feed α) : Prop :=
  ∀ item ∈ feed.head?, ∃ row, item = .ok row ∧ ¬ row.timestamp ≤ limit

theorem Later.nil : Later limit ([] : Feed α) := by
  intro item hitem
  cases hitem

theorem Later.cons {row : Row α} (h : ¬ row.timestamp ≤ limit) (rest : Feed α) :
    Later limit (.ok row :: rest) := by
  intro item hitem
  obtain rfl := Option.some.inj hitem
  exact ⟨row, rfl, h⟩

theorem Later.of_append {tail : Feed α} (h : Later limit (feed ++ tail)) : Later limit feed := by
  intro item hitem
  cases feed with
  | nil => cases hitem
  | cons first rest => exact h item hitem

theorem Later.upTo_eq_nil {rows : List (Row α)} (h : Later limit (ofRows rows)) :
    Row.upTo limit rows = [] := by
  cases rows with
  | nil => rfl
  | cons row rest =>
    obtain ⟨_, hrow, hnot⟩ := h _ rfl
    obtain rfl := Except.ok.inj hrow
    exact Row.upTo_cons_of_not_le hnot

/-- In ascending order, no row at all is left up to the limit. -/
theorem Later.forall_rowsOf (h : Later limit feed)
    (hasc : (rowsOf feed).Pairwise fun a b => a.timestamp ≤ b.timestamp) :
    ∀ row ∈ rowsOf feed, limit < row.timestamp := by
  cases feed with
  | nil => simp
  | cons item rest =>
    obtain ⟨first, rfl, hfirst⟩ := h item rfl
    intro row hrow
    rw [rowsOf_cons_ok] at hasc hrow
    rw [Timestamp.le_iff] at hfirst
    rw [Timestamp.lt_iff]
    rcases List.mem_cons.1 hrow with rfl | hmem
    · omega
    · have hle := Timestamp.le_iff.1 ((List.pairwise_cons.1 hasc).1 row hmem)
      omega

end Feed

namespace Bucketing

open Feed

theorem skip_eq (limit : Timestamp) (input : Feed Float) : ∃ skipped tail,
    input = ofRows skipped ++ tail ∧ (∀ row ∈ skipped, row.timestamp ≤ limit) ∧
    ((∃ e rest, tail = .error e :: rest ∧ skip limit input = (some e, rest)) ∨
      (Later limit tail ∧ skip limit input = (none, tail))) := by
  fun_induction skip limit input with
  | case1 => exact ⟨[], [], rfl, by simp, .inr ⟨.nil, rfl⟩⟩
  | case2 e rest => exact ⟨[], _, rfl, by simp, .inl ⟨e, rest, rfl, rfl⟩⟩
  | case3 row rest hle ih =>
    obtain ⟨skipped, tail, hinput, hskipped, hend⟩ := ih
    exact ⟨row :: skipped, tail, by rw [hinput]; rfl, by simpa using ⟨hle, hskipped⟩, hend⟩
  | case4 row rest hle => exact ⟨[], _, rfl, by simp, .inr ⟨.cons hle rest, rfl⟩⟩

theorem fill_eq (ceiling : Timestamp) (buckets : List Bucket) (input : Feed Float) : ∃ points tail,
    input = ofRows points ++ tail ∧ (∀ row ∈ points, row.timestamp ≤ ceiling) ∧
    ((∃ e rest, tail = .error e :: rest ∧
        fill ceiling buckets input = (buckets.map (·.addAll points), some e, rest)) ∨
      (Later ceiling tail ∧
        fill ceiling buckets input = (buckets.map (·.addAll points), none, tail))) := by
  have hnil (buckets : List Bucket) : buckets.map (·.addAll []) = buckets := by
    simp [Bucket.addAll]
  fun_induction fill ceiling buckets input with
  | case1 buckets => exact ⟨[], [], rfl, by simp, .inr ⟨.nil, by rw [hnil]⟩⟩
  | case2 buckets e rest => exact ⟨[], _, rfl, by simp, .inl ⟨e, rest, rfl, by rw [hnil]⟩⟩
  | case3 buckets row rest hle ih =>
    obtain ⟨points, tail, hinput, hpoints, hend⟩ := ih
    refine ⟨row :: points, tail, by rw [hinput]; rfl, by simpa using ⟨hle, hpoints⟩, ?_⟩
    simpa [Bucket.addAll, Function.comp_def] using hend
  | case4 buckets row rest hle =>
    exact ⟨[], _, rfl, by simp, .inr ⟨.cons hle rest, by rw [hnil]⟩⟩

end Bucketing

/-! ## Attempts -/

/-- The values of the points that were added first are gone, their attributes are not. -/
theorem Bucket.addAll_cleared (b : Bucket) (abandoned points : List (Row Float)) :
    ({ ({ b.addAll abandoned with values := [] } : Bucket).addAll points with
        values := [] } : Bucket) =
      { b.addAll (abandoned ++ points) with values := [] } := by
  simp only [addAll_eq, List.map_append, List.foldl_append]

/-- One request for a bucket. -/
structure Attempt where
  ceiling : Timestamp
  /-- The points that are left behind because they lie before the first bucket. -/
  skipped : List (Row Float)
  /-- The points that the bucket is filled with. -/
  points : List (Row Float)
  answer : Except QueryError (Row Float)

namespace Attempt

/-- The bucket is abandoned because of an error. -/
def failed (a : Attempt) : Bool :=
  match a.answer with
  | .ok _ => false
  | .error _ => true

/-- What is taken out of the input. -/
def items (a : Attempt) : Feed Float :=
  .ofRows (a.skipped ++ a.points) ++
    match a.answer with
    | .ok _ => []
    | .error e => [.error e]

/-- The points of the buckets that were abandoned since the last row. -/
def abandoned (attempts : List Attempt) : List (Row Float) :=
  (attempts.rtakeWhile failed).flatMap (·.points)

/-- Whether the points before the first bucket have been left behind. -/
def begun (attempts : List Attempt) : Bool :=
  attempts.any fun a => !(a.failed && a.points.isEmpty)

variable {attempts : List Attempt} {a : Attempt}

theorem begun_concat (attempts : List Attempt) (a : Attempt) :
    begun (attempts ++ [a]) = (begun attempts || !(a.failed && a.points.isEmpty)) := by
  simp [begun]

theorem abandoned_concat_of_failed (h : a.failed = true) :
    abandoned (attempts ++ [a]) = abandoned attempts ++ a.points := by
  simp [abandoned, h]

theorem abandoned_concat_of_not_failed (h : ¬ a.failed = true) :
    abandoned (attempts ++ [a]) = [] := by
  simp [abandoned, h]

theorem exists_of_mem_abandoned {row : Row Float} (h : row ∈ abandoned attempts) :
    ∃ a ∈ attempts, row ∈ a.points := by
  obtain ⟨a, ha, hrow⟩ := List.mem_flatMap.1 h
  exact ⟨a, (List.rtakeWhile_suffix _ _).subset ha, hrow⟩

end Attempt

/-- The row of a bucket that is filled after others were abandoned. -/
def Descriptor.resumed (d : Descriptor) (resource : String) (pointsPerBucket : Float)
    (abandoned points : List (Row Float)) (ceiling : Timestamp) : Row Float :=
  d.bucketRow resource pointsPerBucket
    (fun b => ({ b.addAll abandoned with values := [] } : Bucket).addAll points) ceiling

/-- What one request does after some others: `rest` is what it leaves of the input. -/
structure Attempt.Follows (d : Descriptor) (resource : String) (pointsPerBucket : Float)
    (resolution : Duration) (before : List Attempt) (a : Attempt) (rest : Feed Float) :
    Prop where
  skipped_le : ∀ row ∈ a.skipped, row.timestamp ≤ a.ceiling - resolution
  skipped_eq_nil : begun before = true → a.skipped = []
  points_le : ∀ row ∈ a.points, row.timestamp ≤ a.ceiling
  points_later : begun before = false → Feed.Later (a.ceiling - resolution) (.ofRows a.points)
  eq_resumed : ∀ row, a.answer = .ok row →
    row = d.resumed resource pointsPerBucket (abandoned before) a.points a.ceiling
  rest_later : ∀ row, a.answer = .ok row → Feed.Later a.ceiling rest

namespace Bucketing

open Feed

variable {b : Bucketing} {d : Descriptor} {before : List Attempt} {ceiling : Timestamp}
  {points : Lattice}

/-- The state that some requests have led to, apart from the values of the last. -/
structure After (b : Bucketing) (d : Descriptor) (before : List Attempt) : Prop where
  primed_eq : b.primed = Attempt.begun before
  buckets_eq : b.buckets.map ({ · with values := [] }) =
    d.buckets.map fun bucket => { bucket.addAll (Attempt.abandoned before) with values := [] }

theorem prime_eq (b : Bucketing) (ceiling : Timestamp) : ∃ skipped tail,
    b.input = ofRows skipped ++ tail ∧
    (∀ row ∈ skipped, row.timestamp ≤ ceiling - b.resolution) ∧
    (b.primed = true → skipped = []) ∧
    ((∃ e rest, b.primed = false ∧ tail = .error e :: rest ∧
        b.prime ceiling = (some e, { b with input := rest })) ∨
      ((b.primed = false → Later (ceiling - b.resolution) tail) ∧
        b.prime ceiling = (none, { b with primed := true, input := tail }))) := by
  unfold prime
  cases hprimed : b.primed with
  | true => exact ⟨[], b.input, rfl, by simp, fun _ => rfl, .inr ⟨nofun, by simp [← hprimed]⟩⟩
  | false =>
    obtain ⟨skipped, tail, hinput, hskipped, ⟨e, rest, rfl, hskip⟩ | ⟨hlater, hskip⟩⟩ :=
      skip_eq (ceiling - b.resolution) b.input
    · exact ⟨skipped, _, hinput, hskipped, nofun, .inl ⟨e, rest, rfl, rfl, by simp [hskip]⟩⟩
    · exact ⟨skipped, _, hinput, hskipped, nofun, .inr ⟨fun _ => hlater, by simp [hskip]⟩⟩

/-- The cases are those of a request: an error in front of the first bucket, an error in the
bucket, and a row. -/
theorem next?_after (h : b.After d before) (hp : b.points.next? = some (ceiling, points)) :
    ∃ a b', b.next? = some (a.answer, b') ∧ a.ceiling = ceiling ∧
      b.input = a.items ++ b'.input ∧ b'.After d (before ++ [a]) ∧ b'.points = points ∧
      a.Follows d b.resource b.pointsPerBucket b.resolution before b'.input ∧
      b'.resource = b.resource ∧ b'.pointsPerBucket = b.pointsPerBucket ∧
      b'.resolution = b.resolution := by
  obtain ⟨hprimed, hbuckets⟩ := h
  obtain ⟨skipped, tail, hinput, hskipped, hnone, hstart⟩ := prime_eq { b with points } ceiling
  replace hnone : Attempt.begun before = true → skipped = [] := fun h => hnone (hprimed.trans h)
  rcases hstart with ⟨e, rest, hbegun, rfl, hprime⟩ | ⟨hlater, hprime⟩
  · refine ⟨⟨ceiling, skipped, [], .error e⟩, { b with points, input := rest }, ?_, rfl, ?_,
      ⟨?_, ?_⟩, rfl, ⟨hskipped, hnone, by simp, fun _ => .nil, by simp, by simp⟩,
      rfl, rfl, rfl⟩
    · simp only [next?, hp, Option.map_some, hprime]
    · simpa [Attempt.items] using hinput
    · simp [Attempt.begun_concat, Attempt.failed, ← hprimed]
    · rw [hbuckets, Attempt.abandoned_concat_of_failed rfl, List.append_nil]
  replace hlater : Attempt.begun before = false → Later (ceiling - b.resolution) tail :=
    fun h => hlater (hprimed.trans h)
  obtain ⟨pulled, tail', rfl, hpulled, ⟨e, rest, rfl, hfill⟩ | ⟨hend, hfill⟩⟩ :=
    fill_eq ceiling (b.buckets.map ({ · with values := [] })) tail
  · refine ⟨⟨ceiling, skipped, pulled, .error e⟩, { b with
      points
      primed := true
      buckets := (b.buckets.map ({ · with values := [] })).map (·.addAll pulled)
      input := rest }, ?_, rfl, ?_, ⟨?_, ?_⟩, rfl, ⟨hskipped, hnone, hpulled,
        fun hbegun => (hlater hbegun).of_append, by simp, by simp⟩, rfl, rfl, rfl⟩
    · simp only [next?, hp, Option.map_some, hprime, hfill]
    · simpa [Attempt.items, ofRows_append] using hinput
    · -- What ended the skipping of points is the first point of the bucket.
      cases hbegun : Attempt.begun before with
      | true => simp [Attempt.begun_concat, hbegun]
      | false =>
        cases pulled with
        | nil =>
          obtain ⟨row, hrow, -⟩ := hlater hbegun _ rfl
          cases hrow
        | cons row rows => simp [Attempt.begun_concat]
    · rw [Attempt.abandoned_concat_of_failed rfl, hbuckets, List.map_map, List.map_map]
      exact List.map_congr_left fun bucket _ => bucket.addAll_cleared _ pulled
  · have hrow : d.resumed b.resource b.pointsPerBucket (Attempt.abandoned before) pulled ceiling =
        (Row.empty ceiling b.resource).insertAll
          (((b.buckets.map ({ · with values := [] })).map (·.addAll pulled)).map
            (·.measurement b.resource ceiling b.pointsPerBucket)) := by
      rw [hbuckets, List.map_map, List.map_map]
      rfl
    refine ⟨⟨ceiling, skipped, pulled, .ok (d.resumed b.resource b.pointsPerBucket
      (Attempt.abandoned before) pulled ceiling)⟩, { b with
      points
      primed := true
      buckets := ((b.buckets.map ({ · with values := [] })).map (·.addAll pulled)).map
        ({ · with attributes := none })
      input := tail' }, ?_, rfl, ?_, ⟨?_, ?_⟩, rfl, ⟨hskipped, hnone, hpulled,
        fun hbegun => (hlater hbegun).of_append, fun row hrow => (Except.ok.inj hrow).symm,
        fun _ _ => hend⟩, rfl, rfl, rfl⟩
    · simp only [next?, hp, Option.map_some, hprime, hfill, hrow]
    · simpa [Attempt.items, ofRows_append] using hinput
    · simp [Attempt.begun_concat, Attempt.failed]
    · rw [Attempt.abandoned_concat_of_not_failed (by simp [Attempt.failed]), hbuckets]
      simp [Descriptor.buckets, Function.comp_def, Bucket.addAll_eq]

theorem after_start (d : Descriptor) (resource : String) (start finish : Timestamp)
    (resolution : Duration) (input : Feed Float) :
    (Bucketing.start d resource start finish resolution input).After d [] := by
  refine ⟨rfl, ?_⟩
  simp [Bucketing.start, Descriptor.buckets, Attempt.abandoned, Bucket.addAll]

/-- The induction runs over the requests. -/
theorem unfold_after (h : b.After d before) (n : Nat) :
    ∃ (attempts : List Attempt) (rest : Feed Float),
    Feed.unfold next? n b = attempts.map (·.answer) ∧
    attempts.map (·.ceiling) = b.points.take n ∧
    b.input = attempts.flatMap (·.items) ++ rest ∧
    ∀ earlier a later, attempts = earlier ++ a :: later →
      a.Follows d b.resource b.pointsPerBucket b.resolution (before ++ earlier)
        (later.flatMap (·.items) ++ rest) := by
  induction n generalizing b before with
  | zero => exact ⟨[], b.input, rfl, rfl, rfl, by simp⟩
  | succ n ih =>
    cases hp : b.points.next? with
    | none => exact ⟨[], b.input, by simp [Feed.unfold, next?, hp], by simp [Lattice.take, hp], rfl,
        by simp⟩
    | some step =>
      obtain ⟨ceiling, points⟩ := step
      obtain ⟨first, b', hnext, rfl, hinput, hafter, rfl, hfirst, hresource, hcount, hresolution⟩ :=
        next?_after h hp
      obtain ⟨attempts, rest, hanswers, hceilings, hrest, hall⟩ := ih hafter
      rw [hresource, hcount, hresolution] at hall
      refine ⟨first :: attempts, rest, ?_, ?_, ?_, ?_⟩
      · rw [Feed.unfold, hnext, List.map_cons, ← hanswers]
      · rw [Lattice.take, hp, List.map_cons, hceilings]
      · rw [hinput, hrest, List.flatMap_cons, List.append_assoc]
      · intro earlier a later heq
        rcases List.cons_eq_append_iff.1 heq with ⟨rfl, hcons⟩ | ⟨earlier', rfl, happend⟩
        · obtain ⟨rfl, rfl⟩ := List.cons.inj hcons
          rw [List.append_nil, ← hrest]
          exact hfirst
        · rw [List.append_cons]
          exact hall earlier' a later happend

end Bucketing

/-! ## What is left of abandoned buckets -/

/-- Rounding the ends of a range, walking from one to the other and measuring each bucket from its
beginning stay within range. -/
structure BucketsFit (start finish : Timestamp) (resolution : Duration) : Prop extends
    RangeFits start finish resolution where
  floors : ∀ c ∈ (Lattice.covering start finish resolution).toList, c.SubFits resolution

instance (start finish : Timestamp) (resolution : Duration) :
    Decidable (BucketsFit start finish resolution) :=
  decidable_of_iff (RangeFits start finish resolution ∧
      ∀ c ∈ (Lattice.covering start finish resolution).toList, c.SubFits resolution)
    ⟨fun ⟨hrange, hfloors⟩ => ⟨hrange, hfloors⟩, fun ⟨hrange, hfloors⟩ => ⟨hrange, hfloors⟩⟩

namespace Attempt

/-- The points of a bucket that lie before its window. -/
def stray (resolution : Duration) (a : Attempt) : List (Row Float) :=
  Row.upTo (a.ceiling - resolution) a.points

/-- What a row is made of that is handed out after some other requests. -/
structure Filled (resolution : Duration) (points : List (Row Float)) (before : List Attempt)
    (a : Attempt) : Prop where
  points_eq : a.points = a.stray resolution ++ Row.window resolution a.ceiling points
  le_of_mem : ∀ point ∈ abandoned before ++ a.stray resolution,
    point.timestamp.nanos ≤ a.ceiling.nanos - resolution.nanos
  /-- After a row, or after errors in front of the first bucket, nothing is left of buckets
  before. -/
  eq_nil : (begun before = true → ∀ b ∈ before.getLast?, b.failed = false) →
    abandoned before = [] ∧ a.stray resolution = []

variable {attempts : List Attempt} {a : Attempt}

theorem rowsOf_items (a : Attempt) : Feed.rowsOf a.items = a.skipped ++ a.points := by
  unfold items
  rw [Feed.rowsOf_append, Feed.rowsOf_ofRows]
  cases a.answer <;> simp [Feed.rowsOf, Except.toOption]

theorem mem_rowsOf_items {row : Row Float} :
    row ∈ Feed.rowsOf (attempts.flatMap (·.items)) ↔
      ∃ a ∈ attempts, row ∈ a.skipped ∨ row ∈ a.points := by
  induction attempts with
  | nil => simp
  | cons a rest ih => simp [ih, rowsOf_items, or_assoc]

theorem exists_answer (h : a.failed = false) : ∃ row, a.answer = .ok row := by
  unfold failed at h
  cases hanswer : a.answer with
  | ok row => exact ⟨row, rfl⟩
  | error e => simp [hanswer] at h

theorem abandoned_eq_nil_of_not_begun (h : begun attempts = false) : abandoned attempts = [] := by
  rw [List.eq_nil_iff_forall_not_mem]
  intro row hrow
  obtain ⟨a, ha, hpoint⟩ := exists_of_mem_abandoned hrow
  have hnone := List.any_eq_false.1 h a ha
  simp only [Bool.not_eq_true, Bool.not_eq_false', Bool.and_eq_true, List.isEmpty_iff] at hnone
  rw [hnone.2] at hpoint
  cases hpoint

/-- The requests for the buckets over a range; `rest` is what they leave of the input. -/
structure Run (d : Descriptor) (resource : String) (start finish : Timestamp)
    (resolution : Duration) (attempts : List Attempt) (rest : Feed Float) : Prop where
  ceilings_eq : attempts.map (·.ceiling) = (Lattice.covering start finish resolution).toList
  follows : ∀ before a later, attempts = before ++ a :: later →
    a.Follows d resource (resolution.ratio d.step) resolution before
      (later.flatMap (·.items) ++ rest)

namespace Run

variable {d : Descriptor} {resource : String} {start finish : Timestamp} {resolution : Duration}
  {before later : List Attempt} {rest : Feed Float} {row point : Row Float}
  (h : Run d resource start finish resolution (before ++ a :: later) rest)
include h

theorem self : a.Follows d resource (resolution.ratio d.step) resolution before
    (later.flatMap (·.items) ++ rest) :=
  h.follows before a later rfl

variable (hfits : BucketsFit start finish resolution)
include hfits

theorem nanos_floor {b : Attempt} (hb : b ∈ before ++ a :: later) :
    (b.ceiling - resolution).nanos = b.ceiling.nanos - resolution.nanos :=
  Timestamp.nanos_sub (hfits.floors _ (h.ceilings_eq ▸ List.mem_map_of_mem hb))

variable (hres : 0 < resolution.nanos)
include hres

/-- The ends of different buckets are at least one resolution apart. -/
theorem ceiling_le {b : Attempt} (hb : b ∈ before) :
    b.ceiling.nanos ≤ a.ceiling.nanos - resolution.nanos := by
  have hlt := hfits.pairwise hres
  rw [← h.ceilings_eq, List.map_append] at hlt
  have hba : b.ceiling.nanos < a.ceiling.nanos :=
    (List.pairwise_append.1 hlt).2.2 _ (List.mem_map_of_mem hb) _ List.mem_cons_self
  have hdvd {c : Attempt} (hc : c ∈ before ++ a :: later) : resolution.nanos ∣ c.ceiling.nanos :=
    (hfits.nanos_of_mem hres (h.ceilings_eq ▸ List.mem_map_of_mem hc)).2.2
  have hgap := Int.le_of_dvd (by omega) (Int.dvd_sub (hdvd (c := a) (by simp))
    (hdvd (List.mem_append_left _ hb)))
  omega

/-- What was taken out of the input before lies before the bucket's window. -/
theorem le_of_mem_before (hpoint : point ∈ Feed.rowsOf (before.flatMap (·.items))) :
    point.timestamp.nanos ≤ a.ceiling.nanos - resolution.nanos := by
  obtain ⟨b, hb, hmem⟩ := mem_rowsOf_items.1 hpoint
  have hle := h.ceiling_le hfits hres hb
  have hfloor := h.nanos_floor hfits (List.mem_append_left _ hb)
  obtain ⟨earlier, behind, rfl⟩ := List.append_of_mem hb
  have hfollows := h.follows earlier b (behind ++ a :: later) (by simp)
  rcases hmem with hmem | hmem
  · have := Timestamp.le_iff.1 (hfollows.skipped_le point hmem)
    omega
  · have := Timestamp.le_iff.1 (hfollows.points_le point hmem)
    omega

/-- Right after a row, the input goes on behind the beginning of the bucket's window. -/
theorem lt_of_mem_points {b : Attempt} (hb : b ∈ before.getLast?) (hrow : b.answer = .ok row)
    (hasc : (Feed.rowsOf ((a :: later).flatMap (·.items) ++ rest)).Pairwise
      fun p q => p.timestamp ≤ q.timestamp) (hpoint : point ∈ a.points) :
    a.ceiling.nanos - resolution.nanos < point.timestamp.nanos := by
  obtain ⟨init, rfl⟩ := List.getLast?_eq_some_iff.1 hb
  have hrest := (h.follows init b (a :: later) (by simp)).rest_later row hrow
  have hlt := Timestamp.lt_iff.1 (hrest.forall_rowsOf hasc point (by simp [rowsOf_items, hpoint]))
  have hchain := hfits.isChain hres
  rw [← h.ceilings_eq, List.append_assoc, List.map_append] at hchain
  have hgap : a.ceiling.nanos = b.ceiling.nanos + resolution.nanos :=
    (List.isChain_append_cons_cons.1 hchain).2.1
  omega

/-- The row of a bucket is made of all that lies in its window, and of what it has been left. -/
theorem filled (hasc : (Feed.rowsOf ((before ++ a :: later).flatMap (·.items) ++ rest)).Pairwise
      fun p q => p.timestamp ≤ q.timestamp) (hrow : a.answer = .ok row) :
    a.Filled resolution (Feed.rowsOf ((before ++ a :: later).flatMap (·.items) ++ rest))
      before := by
  have hfloor := h.nanos_floor hfits (b := a) (by simp)
  have hskipped : ∀ point ∈ a.skipped,
      point.timestamp.nanos ≤ a.ceiling.nanos - resolution.nanos := by
    intro point hpoint
    rw [← hfloor]
    exact Timestamp.le_iff.1 (h.self.skipped_le point hpoint)
  rw [List.flatMap_append, List.append_assoc, Feed.rowsOf_append] at hasc ⊢
  obtain ⟨-, hown, -⟩ := List.pairwise_append.1 hasc
  have hrows : Feed.rowsOf ((a :: later).flatMap (·.items) ++ rest) =
      a.skipped ++ (a.points ++ Feed.rowsOf (later.flatMap (·.items) ++ rest)) := by
    simp [rowsOf_items]
  obtain ⟨hpoints, hlater, -⟩ :=
    List.pairwise_append.1 (List.pairwise_append.1 (hrows ▸ hown)).2.1
  have hbehind := (h.self.rest_later row hrow).forall_rowsOf hlater
  refine ⟨?_, ?_, ?_⟩
  · rw [hrows, Row.window_append, Row.window_append, Row.window_append,
      Row.window_eq_nil_of_le fun _ => h.le_of_mem_before hfits hres,
      Row.window_eq_nil_of_le hskipped, Row.window_eq_nil_of_lt hbehind,
      Row.window_eq_after hpoints h.self.points_le hfloor, List.nil_append, List.nil_append,
      List.append_nil, stray, Row.upTo_append_after]
  · intro point hpoint
    rcases List.mem_append.1 hpoint with hmem | hmem
    · obtain ⟨b, hb, hmem⟩ := exists_of_mem_abandoned hmem
      exact h.le_of_mem_before hfits hres (mem_rowsOf_items.2 ⟨b, hb, .inr hmem⟩)
    · rw [← hfloor]
      exact Timestamp.le_iff.1 (Row.le_of_mem_upTo hmem)
  · intro hclean
    cases hbegun : begun before with
    | false =>
      exact ⟨abandoned_eq_nil_of_not_begun hbegun, (h.self.points_later hbegun).upTo_eq_nil⟩
    | true =>
      obtain rfl | ⟨init, b, rfl⟩ := List.eq_nil_or_concat' before
      · cases hbegun
      have hfailed := hclean hbegun b (by simp)
      obtain ⟨row', hrow'⟩ := exists_answer hfailed
      refine ⟨abandoned_concat_of_not_failed (by simp [hfailed]), ?_⟩
      rw [stray, List.eq_nil_iff_forall_not_mem]
      intro point hmem
      have hle := Timestamp.le_iff.1 (Row.le_of_mem_upTo hmem)
      have hlt := h.lt_of_mem_points hfits hres (by simp) hrow' hown (Row.upTo_subset _ _ hmem)
      omega

end Run

end Attempt

/-- The measurement that a datasource gets from some points after others were abandoned: their
values are gone, what was attached to them is not. -/
structure Datasource.Gathers (ds : Datasource) (pointsPerBucket : Float)
    (abandoned points : List (Row Float)) (m : Measurement) : Prop where
  value_eq :
    let values := points.map (·.valueOf ds.label)
    m.value =
      if ds.xff < (Consolidation.known values).length.toUInt64.toFloat / pointsPerBucket then
        ds.function.apply values
      else unknown
  merged : Attributes.Merged
    ((abandoned ++ points).map fun point => (point.get? ds.label).bind (·.attributes))
    m.attributes

theorem Bucket.gathers_measurement (ds : Datasource) (resource : String) (c : Timestamp)
    (pointsPerBucket : Float) (abandoned points : List (Row Float)) :
    ds.Gathers pointsPerBucket abandoned points
      ((({ (⟨ds, [], none⟩ : Bucket).addAll abandoned with values := [] } : Bucket).addAll
        points).measurement resource c pointsPerBucket) := by
  rw [addAll_eq, addAll_eq]
  refine ⟨?_, ?_⟩
  · simp only [measurement, value, List.nil_append]
  · rw [List.map_append]
    simpa [measurement] using (Attributes.Merged.nil.foldl _).foldl _

/-- Buckets over an input that is interrupted by errors. Each request takes the next points out of
the input, up to an error or to the end of its bucket. The row of a bucket gets its values from the
points that were taken out for it, and its attributes also from those of the buckets that were
abandoned since the last row. The former are the points of its window and points before it that
stand behind the last error. Right after a row, or after errors in front of the first bucket, there
are none of these. -/
theorem Feed.buckets?_resumed {draft : Draft} {d : Descriptor} {start finish : Timestamp}
    {resolution : Duration} {input : Feed Float} (hd : draft.build = .ok d) (resource : String)
    (hmultiple : resolution.isMultipleOf d.step = true)
    (hasc : (rowsOf input).Pairwise fun p q => p.timestamp ≤ q.timestamp) :
    ∃ (attempts : List Attempt) (rest : Feed Float),
      Feed.buckets? d resource start finish resolution input =
        .ok (attempts.map (·.answer)) ∧
      input = attempts.flatMap (·.items) ++ rest ∧
      Attempt.Run d resource start finish resolution attempts rest ∧
      ∀ before a later row, attempts = before ++ a :: later → a.answer = .ok row →
        row.Shaped resource a.ceiling (d.datasources.map (·.label)) ∧
        (BucketsFit start finish resolution → a.Filled resolution (rowsOf input) before) ∧
        ∀ ds ∈ d.datasources, ∃ m, row.get? ds.label = some m ∧
          ds.Gathers (resolution.ratio d.step) (Attempt.abandoned before) a.points m ∧
          (BucketsFit start finish resolution →
            (Attempt.begun before = true → ∀ b ∈ before.getLast?, b.failed = false) →
            ds.Consolidates (resolution.ratio d.step)
              (Row.window resolution a.ceiling (rowsOf input)) m) := by
  have hnodup := (Draft.wellFormed_of_build hd).datasources_nodup
  have hres := Duration.pos_of_isMultipleOf hmultiple
  let b := Bucketing.start d resource start finish resolution input
  obtain ⟨attempts, rest, hanswers, hceilings, hinput, hall⟩ :=
    Bucketing.unfold_after (Bucketing.after_start d resource start finish resolution input)
      b.points.count
  have hrun : Attempt.Run d resource start finish resolution attempts rest := ⟨hceilings, hall⟩
  refine ⟨attempts, rest, ?_, hinput, hrun, ?_⟩
  · rw [buckets?, checkResolution, if_pos hmultiple]
    exact congrArg Except.ok hanswers
  rintro before a later row rfl hrow
  have hkeep (abandoned points : List (Row Float)) (b : Bucket) :
      (({ b.addAll abandoned with values := [] } : Bucket).addAll points).datasource =
        b.datasource := by simp
  have hfilled (hfits : BucketsFit start finish resolution) :
      a.Filled resolution (rowsOf input) before := by
    have hinput : input = (before ++ a :: later).flatMap (·.items) ++ rest := hinput
    subst hinput
    exact hrun.filled hfits hres hasc hrow
  obtain rfl := hrun.self.eq_resumed row hrow
  refine ⟨d.bucketRow_shaped hnodup (hkeep _ _) _ _ _, hfilled, fun ds hds => ?_⟩
  have hgathers := Bucket.gathers_measurement ds resource a.ceiling (resolution.ratio d.step)
    (Attempt.abandoned before) a.points
  refine ⟨_, d.get?_bucketRow hnodup hds (hkeep _ _) _ _ _, hgathers, fun hfits hclean => ?_⟩
  obtain ⟨habandoned, hstray⟩ := (hfilled hfits).eq_nil hclean
  have hpoints := (hfilled hfits).points_eq
  rw [hstray, List.nil_append] at hpoints
  rw [← hpoints]
  exact ⟨hgathers.value_eq, by simpa [habandoned] using hgathers.merged⟩

/-- A point of one datasource. -/
def loadPoint (n : Int) (x : Float) (attributes : Option Attributes) : Row Float :=
  (Row.empty (.ofTicks n .seconds) "host").insert
    ⟨.ofTicks n .seconds, "host", "load", x, attributes⟩

/-- A point with attributes, an error in the bucket from 0 to 2 s, one more point of this bucket,
and the two points of the next one. -/
def interruptedPoints : Feed Float :=
  [.ok (loadPoint 1 1 (some (.ofList [("zone", "a")]))), .error (.unreadable (.unavailable "x")),
    .ok (loadPoint 2 100 none), .ok (loadPoint 3 5 none), .ok (loadPoint 4 7 none)]

/-- The row of the second bucket shows the attributes of the first one, and its value is the average
of 100, 5 and 7, although only 5 and 7 lie in its window. -/
theorem Feed.buckets?_resumed_interrupted :
    ∃ (failed a : Attempt) (row : Row Float) (m : Measurement),
      Feed.buckets? .load "host" (.ofTicks 2 .seconds) (.ofTicks 4 .seconds)
        (.ofTicks 2 .seconds) interruptedPoints = .ok [failed.answer, a.answer] ∧
      failed.failed = true ∧ a.answer = .ok row ∧
      a.points = a.stray (.ofTicks 2 .seconds) ++ [loadPoint 3 5 none, loadPoint 4 7 none] ∧
      row.get? "load" = some m ∧ m.value = 112 / 3 ∧
      m.attributes = some (.ofList [("zone", "a")]) := by
  have hfits : BucketsFit (.ofTicks 2 .seconds) (.ofTicks 4 .seconds) (.ofTicks 2 .seconds) := by
    decide
  have hmultiple : (Duration.ofTicks 2 .seconds).isMultipleOf Descriptor.load.step = true := by
    decide
  have hasc : (rowsOf interruptedPoints).Pairwise fun p q => p.timestamp ≤ q.timestamp := by
    decide
  obtain ⟨attempts, rest, hanswers, -, hrun, hall⟩ := @buckets?_resumed _ _ (.ofTicks 2 .seconds)
    (.ofTicks 4 .seconds) _ _ Draft.build_load "host" hmultiple hasc
  let row := Descriptor.load.resumed "host"
    ((Duration.ofTicks 2 .seconds).ratio Descriptor.load.step)
    [loadPoint 1 1 (some (.ofList [("zone", "a")]))]
    [loadPoint 2 100 none, loadPoint 3 5 none, loadPoint 4 7 none]
    ((Timestamp.ofTicks 2 .seconds).floor (.ofTicks 2 .seconds) + Duration.ofTicks 2 .seconds)
  have hsame : attempts.map (·.answer) = [.error (.unreadable (.unavailable "x")), .ok row] :=
    Except.ok.inj (hanswers.symm.trans rfl)
  obtain ⟨failed, _, rfl, hfailed, hrest⟩ := List.map_eq_cons_iff.1 hsame
  obtain ⟨a, _, rfl, hrow, hnil⟩ := List.map_eq_cons_iff.1 hrest
  obtain rfl := List.map_eq_nil_iff.1 hnil
  obtain ⟨-, hfilled, hmeasured⟩ := hall [failed] a [] row rfl hrow
  obtain ⟨m, hm, -⟩ := hmeasured _ List.mem_cons_self
  have hends := hfits.nanos_toList (by decide)
  rw [← hrun.ceilings_eq] at hends
  have hfour : a.ceiling.nanos = 4000000000 := (List.cons.inj (List.cons.inj hends).2).1
  have hvalue : (row.get? "load").map (·.value) = some (112 / 3) := by decide +kernel
  have hattributes : (row.get? "load").bind (·.attributes) = some (.ofList [("zone", "a")]) := by
    decide +kernel
  rw [hm] at hvalue hattributes
  refine ⟨failed, a, row, m, hanswers, by rw [Attempt.failed, hfailed], hrow, ?_, hm,
    Option.some.inj hvalue, hattributes⟩
  have hpoints := (hfilled hfits).points_eq
  rw [Row.window, hfour] at hpoints
  exact hpoints

end Telemetry
