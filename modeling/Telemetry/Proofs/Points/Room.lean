import Telemetry.Proofs.Points.Local
import Telemetry.Proofs.Points.Notes
import Telemetry.Proofs.Points.Prompt

/-!
# Counts that have room

A bucket is credited with no more than the time from its beginning to the last sample, or to its
end, as long as samples follow each other in time. So no count overflows where the samples and the
ends of the buckets are central: near enough to the epoch for twice the distance of any two of them
to be counted in milliseconds.
-/

namespace Telemetry

namespace Timestamp

variable {a b : Timestamp}

/-- The instant lies in the middle quarter of the range of a count of milliseconds. -/
def Central (t : Timestamp) : Prop :=
  minTicks ≤ 4 * t.millis ∧ 4 * t.millis ≤ maxTicks

instance (t : Timestamp) : Decidable t.Central :=
  inferInstanceAs (Decidable (_ ∧ _))

theorem Central.of_nanos_eq (h : b.Central) (hsame : a.nanos = b.nanos) : a.Central := by
  rwa [Central, millis_eq_clampTicks, hsame, ← millis_eq_clampTicks]

/-- The time between two central instants can be counted. -/
theorem Central.not_overflows (ha : a.Central) (hb : b.Central) :
    overflows (a.millisSince b) = false := by
  simp only [Central, minTicks, maxTicks] at ha hb
  apply Telemetry.not_overflows <;> simp only [millisSince, minTicks, maxTicks] <;> omega

theorem Central.later (ha : a.Central) (hb : b.Central) : (a.later b).Central := by
  unfold Timestamp.later
  split
  · exact ha
  · exact hb

theorem later_le {c : Timestamp} (ha : a ≤ c) (hb : b ≤ c) : a.later b ≤ c := by
  rw [le_iff] at ha hb ⊢
  rw [nanos_later]
  omega

end Timestamp

/-! ## One datasource -/

namespace Coverage

variable {c : Coverage} {floor ceiling : Timestamp} {s : Sample}

/-- Time is credited once, and at most `millis` of it. -/
structure Spends (c : Coverage) (millis : Int) : Prop where
  known_nonneg : 0 ≤ c.knownMillis
  unknown_nonneg : 0 ≤ c.unknownMillis
  sum_le : c.knownMillis + c.unknownMillis ≤ millis

theorem Spends.mono {millis millis' : Int} (h : c.Spends millis) (hle : millis ≤ millis') :
    c.Spends millis' :=
  ⟨h.known_nonneg, h.unknown_nonneg, h.sum_le.trans hle⟩

theorem Spends.credit {millis span : Int} (h : c.Spends millis) (hspan : 0 ≤ span) (known : Bool)
    (x : Float) : (c.credit span known x).Spends (millis + span) := by
  obtain ⟨hknown, hunknown, hsum⟩ := h
  cases known with
  | true => refine ⟨?_, ?_, ?_⟩ <;> simp only [Coverage.credit, if_true] <;> omega
  | false =>
    refine ⟨?_, ?_, ?_⟩ <;> simp only [Coverage.credit, Bool.false_eq_true, if_false] <;> omega

theorem Spends.attach {millis : Int} (h : c.Spends millis) (s : Sample) :
    (c.attach s).Spends millis :=
  ⟨h.known_nonneg, h.unknown_nonneg, h.sum_le⟩

theorem Spends.not_creditOverflows {millis span : Int} (h : c.Spends millis) (hspan : 0 ≤ span)
    (hroom : millis + span ≤ maxTicks) (known : Bool) :
    c.creditOverflows span known = false := by
  obtain ⟨hknown, hunknown, hsum⟩ := h
  have hmin : minTicks ≤ 0 := by decide
  rw [creditOverflows, not_overflows (by omega) (by omega), Bool.false_or]
  cases known with
  | true => exact not_overflows (n := c.knownMillis + span) (by omega) (by omega)
  | false => exact not_overflows (n := c.unknownMillis + span) (by omega) (by omega)

theorem Spends.not_averageOverflows {millis : Int} (h : c.Spends millis)
    (hroom : 2 * millis ≤ maxTicks) : c.averageOverflows = false := by
  obtain ⟨hknown, hunknown, hsum⟩ := h
  have hmin : minTicks ≤ 0 := by decide
  rw [averageOverflows, not_overflows (by omega) (by omega),
    not_overflows (n := c.unknownMillis * 2) (by omega) (by omega), Bool.and_false]
  rfl

/-- Up to where the bucket may be accounted for. -/
def reach (c : Coverage) (floor : Timestamp) : Int :=
  match c.last with
  | none => floor.millis
  | some last => (last.later floor).millis

theorem reach_of_none (h : c.last = none) (floor : Timestamp) : c.reach floor = floor.millis := by
  rw [reach, h]

theorem reach_of_last {last : Timestamp} (h : c.last = some last) (floor : Timestamp) :
    c.reach floor = max last.millis floor.millis := by
  rw [reach, h]
  exact Timestamp.millis_later last floor

/-- No more is credited than the time since the beginning of the bucket. -/
structure HasRoom (c : Coverage) (floor : Timestamp) : Prop where
  spends : c.Spends (c.reach floor - floor.millis)
  central : ∀ last ∈ c.last, last.Central

theorem hasRoom_reset (h : ∀ last ∈ c.last, last.Central) (floor : Timestamp) :
    c.reset.HasRoom floor := by
  refine ⟨⟨le_rfl, le_rfl, ?_⟩, h⟩
  change (0 : Int) ≤ c.reset.reach floor - floor.millis
  cases hlast : c.reset.last with
  | none => rw [reach_of_none hlast]; omega
  | some last => rw [reach_of_last hlast]; omega

section Room

variable {last : Timestamp}

theorem HasRoom.not_averageOverflows (h : c.HasRoom floor) (hf : floor.Central) :
    c.averageOverflows = false := by
  refine h.spends.not_averageOverflows ?_
  simp only [Timestamp.Central, minTicks, maxTicks] at hf ⊢
  cases hlast : c.last with
  | none => rw [reach_of_none hlast]; omega
  | some last =>
    have hcentral := h.central last hlast
    simp only [Timestamp.Central, minTicks, maxTicks] at hcentral
    rw [reach_of_last hlast]
    omega

/-- From the last sample on, or from the beginning of the bucket, there is room for the time up to
any central instant. -/
theorem HasRoom.not_creditOverflows (h : c.HasRoom floor) (hf : floor.Central)
    (hlast : c.last = some last) {t : Timestamp} (ht : t.Central) (hle : last.later floor ≤ t)
    (known : Bool) : c.creditOverflows (t.millisSince (last.later floor)) known = false := by
  have hspan := Timestamp.millis_le_millis hle
  simp only [Timestamp.Central, minTicks, maxTicks] at hf ht
  refine h.spends.not_creditOverflows ?_ ?_ known
  · simp only [Timestamp.millisSince]
    omega
  · rw [reach_of_last hlast, Timestamp.millisSince, Timestamp.millis_later, maxTicks]
    omega

/-- Once it is credited, the bucket is accounted for up to that instant. -/
theorem HasRoom.credit (h : c.HasRoom floor) (hlast : c.last = some last) {t : Timestamp}
    (hle : last.later floor ≤ t) (known : Bool) (x : Float) :
    (c.credit (t.millisSince (last.later floor)) known x).Spends (t.millis - floor.millis) := by
  have hspan := Timestamp.millis_le_millis hle
  refine (h.spends.credit ?_ known x).mono ?_
  · simp only [Timestamp.millisSince]
    omega
  · rw [reach_of_last hlast, Timestamp.millisSince, Timestamp.millis_later]
    omega

theorem HasRoom.not_advanceOverflows (h : c.HasRoom floor) (hf : floor.Central)
    (hs : s.timestamp.Central) (heartbeat : Duration) :
    c.advanceOverflows floor heartbeat s = false := by
  cases hlast : c.last with
  | none => rw [advanceOverflows, hlast]
  | some last =>
    by_cases hlt : last.later floor < s.timestamp
    · have hgap := hs.not_overflows (h.central last hlast)
      have hcredit := h.not_creditOverflows hf hlast hs (Int.le_of_lt hlt)
        (isKnown s.timestamp last heartbeat)
      simp only [advanceOverflows, hlast, hgap, hcredit, Bool.or_self, Bool.and_false]
    · simp only [advanceOverflows, hlast, hlt, decide_false, Bool.false_and]

theorem HasRoom.advance (h : c.HasRoom floor) (hs : s.timestamp.Central)
    (horder : ∀ last ∈ c.last, last ≤ s.timestamp) (heartbeat : Duration) :
    (c.advance floor heartbeat s).HasRoom floor := by
  have hnew : (c.advance floor heartbeat s).last = some s.timestamp := last_advance
  have hcentral : ∀ last ∈ (c.advance floor heartbeat s).last, last.Central := by
    rw [hnew]
    rintro _ ⟨⟩
    exact hs
  refine ⟨?_, hcentral⟩
  rw [reach_of_last hnew, Coverage.advance]
  cases hlast : c.last with
  | none =>
    obtain ⟨hknown, hunknown, hsum⟩ := h.spends
    rw [reach_of_none hlast] at hsum
    exact ⟨hknown, hunknown, hsum.trans (by omega)⟩
  | some last =>
    have hcredited : Spends (if last.later floor < s.timestamp then
        c.credit (s.timestamp.millisSince (last.later floor))
          (isKnown s.timestamp last heartbeat) s.value.number else c)
        (max s.timestamp.millis floor.millis - floor.millis) := by
      split
      next hlt => exact (h.credit hlast (Int.le_of_lt hlt) _ _).mono (by omega)
      next =>
        -- Nothing is credited to a sample that is not later than the beginning of the bucket.
        have hmono := Timestamp.millis_le_millis (horder last hlast)
        refine h.spends.mono ?_
        rw [reach_of_last hlast]
        omega
    have hnoted (c' : Coverage) (hc' : c'.Spends (max s.timestamp.millis floor.millis -
        floor.millis)) : Spends (if floor < s.timestamp then c'.attach s else c')
        (max s.timestamp.millis floor.millis - floor.millis) := by
      split
      next => exact hc'.attach s
      next => exact hc'
    obtain ⟨hknown, hunknown, hsum⟩ := hnoted _ hcredited
    exact ⟨hknown, hunknown, hsum⟩

end Room

end Coverage

/-! ## All datasources -/

/-- Rows with central samples, each of them later than the ones before it. -/
structure Row.Central (rows : List (Row Value)) : Prop where
  stamped : ∀ row ∈ rows, row.Stamped
  ascending : Row.Ascending rows
  central : ∀ row ∈ rows, row.timestamp.Central

theorem Row.Central.of_cons {row : Row Value} {rows : List (Row Value)}
    (h : Row.Central (row :: rows)) : Row.Central rows where
  stamped r hr := h.stamped r (.tail row hr)
  ascending := List.Pairwise.of_cons h.ascending
  central r hr := h.central r (.tail row hr)

theorem Row.Central.after {rows : List (Row Value)} (h : Row.Central rows) (c : Timestamp) :
    Row.Central (Row.after c rows) where
  stamped row hrow := h.stamped row (Row.after_subset c rows hrow)
  ascending := h.ascending.after
  central row hrow := h.central row (Row.after_subset c rows hrow)

namespace Track

variable {t : Track} {floor ceiling : Timestamp} {row : Row Value} {rows : List (Row Value)}

/-- The bucket has room, and the rows that are still to be taken into account lie behind its last
sample. -/
structure Ready (t : Track) (floor : Timestamp) (rows : List (Row Value)) : Prop where
  room : t.coverage.HasRoom floor
  order : ∀ last ∈ t.coverage.last, ∀ row ∈ rows, last < row.timestamp

theorem Ready.not_advanceOverflows (h : t.Ready floor (row :: rows)) (hf : floor.Central)
    (hrows : Row.Central (row :: rows)) : t.advanceOverflows floor row = false := by
  rw [advanceOverflows]
  cases hs : row.get? t.datasource.source with
  | none => rfl
  | some s =>
    have hstamp := hrows.stamped row List.mem_cons_self s (Row.mem_of_get? hs)
    have hcentral := hrows.central row List.mem_cons_self
    exact h.room.not_advanceOverflows hf (hcentral.of_nanos_eq hstamp) _

theorem Ready.advance (h : t.Ready floor (row :: rows)) (hrows : Row.Central (row :: rows)) :
    (t.advance floor row).Ready floor rows := by
  cases hs : row.get? t.datasource.source with
  | none =>
    rw [advance_of_none hs]
    exact ⟨h.room, fun last hlast row' hrow' => h.order last hlast row' (.tail row hrow')⟩
  | some s =>
    have hstamp := hrows.stamped row List.mem_cons_self s (Row.mem_of_get? hs)
    have hcentral := (hrows.central row List.mem_cons_self).of_nanos_eq hstamp
    rw [advance_of_get? hs]
    refine ⟨h.room.advance hcentral (fun last hlast => ?_) _, ?_⟩
    · have hlt := h.order last hlast row List.mem_cons_self
      rw [Timestamp.lt_iff] at hlt
      rw [Timestamp.le_iff, hstamp]
      exact Int.le_of_lt hlt
    · rw [Coverage.last_advance]
      rintro _ ⟨⟩ row' hrow'
      have hlt := List.rel_of_pairwise_cons hrows.ascending hrow'
      rw [Timestamp.lt_iff] at hlt ⊢
      rwa [hstamp]

/-- The induction runs over the rows. -/
theorem Ready.absorb (h : t.Ready floor rows) (hrows : Row.Central rows) (c : Timestamp) :
    (t.absorb floor (Row.upTo c rows)).Ready floor (Row.after c rows) := by
  induction rows generalizing t with
  | nil => exact h
  | cons row rest ih =>
    by_cases hle : row.timestamp ≤ c
    · rw [Row.upTo_cons_of_le hle, Row.after_cons_of_le hle, absorb_cons]
      exact ih (h.advance hrows) hrows.of_cons
    · rw [Row.upTo_cons_of_not_le hle, Row.after_cons_of_not_le hle]
      exact h

/-- For the next bucket there is room again. -/
theorem Ready.reset_close (h : t.Ready floor rows) (hrows : Row.Central rows)
    (floor' : Timestamp) :
    (t.close floor ceiling rows).reset.Ready floor' (Row.after ceiling rows) := by
  have habsorb := h.absorb hrows ceiling
  rw [close, reset_complete]
  exact ⟨Coverage.hasRoom_reset habsorb.room.central floor', habsorb.order⟩

/-- What follows the last sample is credited up to the end of the bucket. -/
theorem not_averageOverflows_complete (h : t.coverage.HasRoom floor) (hf : floor.Central)
    (hc : ceiling.Central) (hle : floor ≤ ceiling) (later : List (Row Value)) :
    (t.complete floor ceiling later).coverage.averageOverflows = false := by
  unfold complete
  split
  next => exact h.not_averageOverflows hf
  next last hlast =>
    split
    next => exact h.not_averageOverflows hf
    next hshort =>
      have hlater := Timestamp.later_le (Int.le_of_lt (Int.not_le.1 hshort)) hle
      have hroom : 2 * (ceiling.millis - floor.millis) ≤ maxTicks := by
        simp only [Timestamp.Central, minTicks, maxTicks] at hf hc ⊢
        omega
      unfold Resampling.carry
      dsimp only
      split
      next s _ =>
        exact ((h.credit hlast hlater _ _).attach s).not_averageOverflows hroom
      next => exact (h.credit hlast hlater _ _).not_averageOverflows hroom
      next => exact h.not_averageOverflows hf

end Track

namespace Resampling

variable {tracks : List Track} {floor ceiling : Timestamp} {rows : List (Row Value)}
  {r : Resampling} {points : Lattice}

/-- The induction runs over the rows. -/
theorem not_absorbOverflows (hf : floor.Central) (hrows : Row.Central rows)
    (h : ∀ t ∈ tracks, t.Ready floor rows) :
    absorbOverflows floor ceiling tracks (.ofRows rows) = false := by
  induction rows generalizing tracks with
  | nil => rfl
  | cons row rest ih =>
    have hnone : tracks.any (·.advanceOverflows floor row) = false := by
      rw [List.any_eq_false]
      intro t ht
      rw [(h t ht).not_advanceOverflows hf hrows]
      exact Bool.false_ne_true
    have hadvanced : ∀ t ∈ advanceAll tracks floor row, t.Ready floor rest := by
      rw [advanceAll, List.forall_mem_map]
      exact fun t ht => (h t ht).advance hrows
    rw [Feed.ofRows_cons, absorbOverflows, hnone, ih hrows.of_cons hadvanced, Bool.or_self,
      Bool.and_false]

/-- What follows the last sample of a datasource is found among the rows at hand. -/
theorem central_of_among {metric : String} {horizon : Timestamp} {s : Sample}
    (hrows : Row.Central rows) (h : CarryOver.among metric horizon rows = .found s) :
    s.timestamp.Central := by
  obtain ⟨hhead, -⟩ := (CarryOver.among_eq_found_iff hrows.stamped hrows.ascending).1 h
  obtain ⟨row, hrow, hnanos⟩ :=
    nanos_of_mem_samplesOf hrows.stamped (List.mem_of_mem_head? hhead)
  exact (hrows.central row hrow).of_nanos_eq hnanos

/-- The induction runs over the tracks. -/
theorem not_completeOverflows (hf : floor.Central) (hc : ceiling.Central) (hle : floor ≤ ceiling)
    {ahead unread : List (Row Value)} (hrows : Row.Central (ahead ++ unread))
    (h : ∀ t ∈ tracks, t.coverage.HasRoom floor) :
    completeOverflows floor ceiling tracks ahead (.ofRows unread) = false := by
  induction tracks generalizing ahead unread with
  | nil => rfl
  | cons t rest ih =>
    obtain ⟨ht, hrest⟩ := List.forall_mem_cons.1 h
    rw [completeOverflows]
    cases hlast : t.coverage.last with
    | none => exact ih hrows hrest
    | some last =>
      dsimp only
      split
      next => exact ih hrows hrest
      next hshort =>
        have hcentral := ht.central last hlast
        have hlater := Timestamp.later_le (Int.le_of_lt (Int.not_le.1 hshort)) hle
        obtain ⟨ahead', unread', hseek, hleft⟩ := seek_eq t.datasource.source
          (last + t.datasource.heartbeat) ahead unread
        have hcarry : carryOverflows t floor ceiling last (.among t.datasource.source
            (last + t.datasource.heartbeat) (ahead ++ unread)) = false := by
          unfold carryOverflows
          dsimp only
          split
          next s hfound =>
            rw [(central_of_among hrows hfound).not_overflows hcentral,
              ht.not_creditOverflows hf hlast hc hlater, Bool.or_self]
          next => exact ht.not_creditOverflows hf hlast hc hlater _
          next => rfl
        rw [hc.not_overflows (hcentral.later hf), hseek]
        dsimp only
        rw [hcarry, ih (hleft.symm ▸ hrows) hrest, Bool.or_self, Bool.or_self]

theorem not_requestOverflows (h : r.Holds rows) (hrows : Row.Central rows)
    (hp : r.points.next? = some (ceiling, points)) (hf : (ceiling - points.interval).Central)
    (hc : ceiling.Central) (hle : ceiling - points.interval ≤ ceiling)
    (htracks : ∀ t ∈ r.tracks, t.Ready (ceiling - points.interval) rows) :
    r.requestOverflows = false := by
  obtain ⟨u, habsorb, hu, ⟨unread', hinput', hleft⟩, -⟩ :=
    absorb_eq (r := { r with points }) h (ceiling - points.interval) ceiling
  obtain ⟨unread, hinput, hheld⟩ := h
  have hroom : ∀ t ∈ u.tracks, t.coverage.HasRoom (ceiling - points.interval) := by
    rw [hu, List.forall_mem_map]
    exact fun t ht => ((htracks t ht).absorb hrows ceiling).room
  have hahead : Row.Central (u.lookahead ++ unread') := hleft ▸ hrows.after ceiling
  obtain ⟨ahead'', unread'', hcomplete, -⟩ := complete_eq (ceiling - points.interval) ceiling
    u.tracks u.lookahead unread'
  have haverage : (u.tracks.map (·.complete (ceiling - points.interval) ceiling
      (u.lookahead ++ unread'))).any (·.coverage.averageOverflows) = false := by
    rw [List.any_eq_false, List.forall_mem_map]
    intro t ht
    rw [Track.not_averageOverflows_complete (hroom t ht) hf hc hle]
    exact Bool.false_ne_true
  have hearly : absorbOverflows (ceiling - points.interval) ceiling r.tracks
      (.ofRows r.lookahead ++ r.input) = false := by
    rw [hinput, ← Feed.ofRows_append, hheld]
    exact not_absorbOverflows hf hrows htracks
  simp only [requestOverflows, hp, hearly, habsorb, hinput', hcomplete, haverage,
    not_completeOverflows hf hc hle hahead hroom, Bool.or_self]

/-- The induction runs over the requests. -/
theorem run_attempt?_eq_next? (n : Nat) (h : r.Holds rows) (hrows : Row.Central rows)
    (htracks : ∀ t ∈ r.tracks, ∀ floor, t.Ready floor rows)
    (hpoints : ∀ c ∈ r.points.take n, (c - r.points.interval).Central ∧ c.Central ∧
      c - r.points.interval ≤ c) :
    Feed.run attempt? n r = Feed.run next? n r := by
  induction n generalizing r rows with
  | zero => rw [Feed.run, Feed.run, attempt?, Option.isSome_map]
  | succ n ih =>
    cases hp : r.points.next? with
    | none =>
      have hnone := next?_of_none hp
      rw [Feed.run, Feed.run, attempt?, hnone, Option.map_none]
    | some step =>
      obtain ⟨ceiling, points⟩ := step
      have hinterval := Lattice.interval_of_next? hp
      rw [Lattice.take, hp, ← hinterval] at hpoints
      obtain ⟨⟨hf, hc, hle⟩, hlater⟩ := List.forall_mem_cons.1 hpoints
      obtain ⟨r', hclose, htracks', hholds, rfl, -⟩ := close?_eq h hp
      have hover := not_requestOverflows h hrows hp hf hc hle fun t ht => htracks t ht _
      have hreset : ∀ t ∈ r'.tracks, ∀ floor, t.Ready floor (Row.after ceiling rows) := by
        rw [htracks', List.map_map, List.forall_mem_map]
        exact fun t ht floor => (htracks t ht _).reset_close hrows floor
      rw [Feed.run, Feed.run, attempt?_of_close? hclose hover, next?_of_close? hclose]
      simp only [ih hholds (hrows.after ceiling) hreset hlater]

end Resampling

end Telemetry
