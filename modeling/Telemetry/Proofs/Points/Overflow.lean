import Telemetry.Proofs.Points.Matching
import Telemetry.Proofs.Points.Prompt

/-!
# Counts that overflow in two runs

Whether a count overflows is told by whole milliseconds, by the tracks so far and by the samples
that they take. Two runs that match have these in common, so that a count overflows in both of them
or in neither. If they are also asked for the same instants, both hand out the same and are
abandoned at the same request.
-/

namespace Telemetry

section Match

variable {ds ds' : Datasource} {c c' : Coverage} {s s' : Sample} {floor floor' : Timestamp}

namespace Coverage.Matches

theorem creditOverflows_eq (h : Matches ds ds' c c') (millis : Int) (known : Bool) :
    c.creditOverflows millis known = c'.creditOverflows millis known := by
  rw [creditOverflows, creditOverflows, h.known_eq, h.unknown_eq]

theorem averageOverflows_eq (h : Matches ds ds' c c') :
    c.averageOverflows = c'.averageOverflows := by
  rw [averageOverflows, averageOverflows, h.known_eq, h.unknown_eq]

theorem advanceOverflows_eq (h : Matches ds ds' c c') (hds : ds.Matches ds')
    (hf : floor.Same floor') (hs : Sample.Matches ds ds' s s') :
    c.advanceOverflows floor ds.heartbeat s = c'.advanceOverflows floor' ds'.heartbeat s' := by
  have hsame := hs.timestamp.same
  unfold advanceOverflows
  rcases rel_iff.1 h.last with ⟨hc, hc'⟩ | ⟨last, last', hc, hc', hlast⟩
  · rw [hc, hc']
  have hlower := hlast.same.later hf
  rw [hc, hc']
  dsimp only
  rw [hsame.millisSince hlast.same, hsame.millisSince hlower, h.creditOverflows_eq,
    isKnown_matches hds hsame hlast.same, decide_eq_decide.2 (hlower.lt_iff hsame)]

end Coverage.Matches

end Match

section Tracks

variable {D : Datasource → Datasource → Prop} {t t' : Track} {tracks tracks' : List Track}
  {row row' : Row Value} {floor floor' ceiling ceiling' : Timestamp}

theorem Track.Matches.advanceOverflows_eq (h : Track.Matches D t t') (hf : floor.Same floor')
    (hrow : Row.Matches D row row') :
    t.advanceOverflows floor row = t'.advanceOverflows floor' row' := by
  unfold Track.advanceOverflows
  rcases rel_iff.1 (hrow.samples _ _ h.paired) with ⟨hs, hs'⟩ | ⟨s, s', hs, hs', hmatch⟩
  · rw [hs, hs']
    rfl
  · rw [hs, hs', Option.any_some, Option.any_some]
    exact h.coverage.advanceOverflows_eq h.datasource hf hmatch

namespace Resampling

theorem absorbOverflows_eq {input input' : Feed Value} (hf : floor.Same floor')
    (hc : ceiling.Same ceiling') (h : List.Forall₂ (Track.Matches D) tracks tracks')
    (hinput : FeedMatches D input input') :
    absorbOverflows floor ceiling tracks input =
      absorbOverflows floor' ceiling' tracks' input' := by
  induction hinput generalizing tracks tracks' with
  | nil => rfl
  | cons hitem _ ih =>
    cases hitem with
    | error e => rfl
    | @ok row row' hrow =>
      have hle : row.timestamp ≤ ceiling ↔ row'.timestamp ≤ ceiling' := by
        rw [Timestamp.le_iff, Timestamp.le_iff, hrow.nanos_eq, hc.1]
      rw [absorbOverflows, absorbOverflows, decide_eq_decide.2 hle,
        any_eq_of_forall₂ (h.imp fun t t' ht => ht.advanceOverflows_eq hf hrow),
        ih (advanceAll_matches h hf hrow)]

theorem carryOverflows_eq {c c' : CarryOver} {last last' : Timestamp}
    (h : CarryOver.Matches t.datasource t'.datasource c c') (ht : Track.Matches D t t')
    (hf : floor.Same floor') (hc : ceiling.Same ceiling') (hlast : last.Same last') :
    carryOverflows t floor ceiling last c = carryOverflows t' floor' ceiling' last' c' := by
  have hmillis := hc.millisSince (hlast.later hf)
  cases h with
  | found hs =>
    have hsame := hs.timestamp.same
    simp only [carryOverflows, hmillis, hsame.millisSince hlast, ht.coverage.creditOverflows_eq,
      Coverage.isKnown_matches ht.datasource hsame hlast]
  | stale => simp only [carryOverflows, hmillis, ht.coverage.creditOverflows_eq]
  | ended => rfl

/-- The induction runs over the tracks. -/
theorem completeOverflows_eq {ahead ahead' : List (Row Value)} {input input' : Feed Value}
    (hf : floor.Same floor') (hc : ceiling.Same ceiling')
    (h : List.Forall₂ (Track.Matches D) tracks tracks')
    (hahead : List.Forall₂ (Row.Matches D) ahead ahead') (hinput : FeedMatches D input input') :
    completeOverflows floor ceiling tracks ahead input =
      completeOverflows floor' ceiling' tracks' ahead' input' := by
  induction h generalizing ahead ahead' input input' with
  | nil => rfl
  | @cons t t' rest rest' ht _ ih =>
    rw [completeOverflows, completeOverflows]
    rcases rel_iff.1 ht.coverage.last with ⟨hl, hl'⟩ | ⟨last, last', hl, hl', hlast⟩
    · rw [hl, hl']
      exact ih hahead hinput
    rw [hl, hl']
    dsimp only
    by_cases hle : ceiling ≤ last
    · rw [if_pos hle, if_pos ((hc.le_iff hlast.same).1 hle)]
      exact ih hahead hinput
    rw [if_neg hle, if_neg (mt (hc.le_iff hlast.same).2 hle), hc.millisSince (hlast.same.later hf)]
    congr 1
    have hseek := seek_matches ht.paired hlast.horizon hahead hinput
    generalize seek t.datasource.source (last + t.datasource.heartbeat) ahead input = found at hseek
    generalize seek t'.datasource.source (last' + t'.datasource.heartbeat) ahead' input' = found'
      at hseek
    obtain ⟨answer, ahead, input⟩ := found
    obtain ⟨answer', ahead', input'⟩ := found'
    obtain ⟨hanswer, hahead, hinput⟩ := hseek
    cases hanswer with
    | error e => rfl
    | ok hcarry =>
      dsimp only
      rw [carryOverflows_eq hcarry ht hf hc hlast.same, ih hahead hinput]

variable {r r' : Resampling} {points points' : Lattice}

theorem requestOverflows_eq (h : Matches D r r') (hp : r.points.next? = some (ceiling, points))
    (hp' : r'.points.next? = some (ceiling', points'))
    (hc : CeilingMatches points.interval points'.interval ceiling ceiling') :
    r.requestOverflows = r'.requestOverflows := by
  obtain ⟨hceiling, hfloor⟩ := hc
  have hstart : Matches D { r with points } { r' with points := points' } :=
    ⟨h.resource_eq, h.tracks, h.lookahead, h.input⟩
  have hahead : FeedMatches D (.ofRows r.lookahead ++ r.input)
      (.ofRows r'.lookahead ++ r'.input) := by
    refine List.rel_append ?_ h.input
    rw [Feed.ofRows, Feed.ofRows, List.forall₂_map_left_iff, List.forall₂_map_right_iff]
    exact h.lookahead.imp fun _ _ hrow => .ok hrow
  have habsorb := absorb_matches hstart hfloor hceiling
  simp only [requestOverflows, hp, hp', absorbOverflows_eq hfloor hceiling h.tracks hahead]
  congr 1
  generalize { r with points }.absorb (ceiling - points.interval) ceiling = early at habsorb
  generalize { r' with points := points' }.absorb (ceiling' - points'.interval) ceiling' = early'
    at habsorb
  obtain ⟨failure, s⟩ := early
  obtain ⟨failure', s'⟩ := early'
  obtain ⟨rfl, hs⟩ := habsorb
  cases failure with
  | some e => rfl
  | none =>
    have hcomplete := complete_matches hfloor hceiling hs.tracks hs.lookahead hs.input
    dsimp only
    rw [completeOverflows_eq hfloor hceiling hs.tracks hs.lookahead hs.input]
    congr 1
    generalize complete (ceiling - points.interval) ceiling s.tracks s.lookahead s.input = done
      at hcomplete
    generalize complete (ceiling' - points'.interval) ceiling' s'.tracks s'.lookahead s'.input =
      done' at hcomplete
    obtain ⟨tracks, failure, ahead, input⟩ := done
    obtain ⟨tracks', failure', ahead', input'⟩ := done'
    obtain ⟨htracks, rfl, -, -⟩ := hcomplete
    cases failure with
    | some e => rfl
    | none => exact any_eq_of_forall₂ (htracks.imp fun t t' ht => ht.coverage.averageOverflows_eq)

theorem pointOf_eq_of_matches (h : List.Forall₂ (Track.Matches D) tracks tracks')
    (resource : String) (ceiling : Timestamp) :
    pointOf resource ceiling tracks = pointOf resource ceiling tracks' := by
  have hsame : tracks.map (·.measurement resource ceiling) =
      tracks'.map (·.measurement resource ceiling) := by
    refine map_eq_iff_forall₂.2 (h.imp fun t t' ht => ?_)
    rw [Track.measurement, Track.measurement, ht.datasource.label_eq, ht.coverage.average_eq,
      ht.coverage.attributes_eq]
  rw [pointOf, pointOf, hsame]

/-- Runs that match and are asked for the same instant give the same answer. -/
theorem attempt?_matches (h : Matches D r r') (hp : r.points.next? = some (ceiling, points))
    (hpoints : r.points = r'.points) : ∃ item s s',
    r.attempt? = some (item, s) ∧ r'.attempt? = some (item, s') ∧ Matches D s s' ∧
      s.points = points ∧ s'.points = points := by
  have hp' : r'.points.next? = some (ceiling, points) := hpoints ▸ hp
  have hc : CeilingMatches points.interval points.interval ceiling ceiling := ⟨.refl _, .refl _⟩
  obtain ⟨closed, closed', s, s', hclose, hclose', hclosed, hs⟩ := close?_matches h hp hp' hc
  have hover := requestOverflows_eq h hp hp' hc
  have hsame : closed.map (·.point r.resource) = closed'.map (·.point r'.resource) := by
    cases hclosed with
    | error e => rfl
    | @ok cl cl' hcl =>
      obtain ⟨hceiling, hceiling', htracks⟩ := hcl
      have hpoint : cl.point r.resource = cl'.point r'.resource := by
        simp only [Closing.point, hceiling, hceiling', h.resource_eq]
        exact pointOf_eq_of_matches htracks _ _
      exact congrArg Except.ok hpoint
  refine ⟨if r.requestOverflows then .error (.abandoned .overflow) else
    closed.map (·.point r.resource), s, s', ?_, ?_, hs, points_of_close? hp hclose,
    points_of_close? hp' hclose'⟩
  · rw [attempt?, next?_of_close? hclose, Option.map_some]
  · rw [attempt?, next?_of_close? hclose', Option.map_some, hover, hsame]

/-- The induction runs over the requests. -/
theorem run_attempt?_eq (n : Nat) (h : Matches D r r') (hpoints : r.points = r'.points) :
    Feed.run attempt? n r = Feed.run attempt? n r' := by
  induction n generalizing r r' with
  | zero => rw [Feed.run, Feed.run, isSome_attempt?, isSome_attempt?, hpoints]
  | succ n ih =>
    cases hp : r.points.next? with
    | none =>
      have hnone : r.attempt? = none := by rw [attempt?, next?_of_none hp, Option.map_none]
      have hnone' : r'.attempt? = none := by
        rw [attempt?, next?_of_none (hpoints ▸ hp), Option.map_none]
      rw [Feed.run, Feed.run, hnone, hnone']
    | some step =>
      obtain ⟨ceiling, points⟩ := step
      obtain ⟨item, s, s', hattempt, hattempt', hs, hsp, hsp'⟩ := attempt?_matches h hp hpoints
      rw [Feed.run, Feed.run, hattempt, hattempt']
      simp only [ih hs (hsp.trans hsp'.symm)]

end Resampling

end Tracks

end Telemetry
