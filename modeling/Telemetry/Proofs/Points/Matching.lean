import Telemetry.Proofs.Fallible
import Telemetry.Proofs.Points.SameInstant

/-!
# Two runs side by side

Of the times that it is given, the making of points sees no more than the order of instants, their
whole milliseconds, and when the heartbeats end that begin with samples. Two runs whose tracks, rows
and instants match in that take the same decisions all along: they read the same items, they carry
the same samples over, and their points show the same.
-/

namespace Telemetry

/-! ## Readings and rows of the same instants -/

section Coincides

variable {α : Type}

/-- Readings that say the same about the same instant. -/
structure Reading.Coincides (r r' : Reading α) : Prop where
  nanos_eq : r.timestamp.nanos = r'.timestamp.nanos
  resource_eq : r.resource = r'.resource
  name_eq : r.name = r'.name
  value_eq : r.value = r'.value
  attributes_eq : r.attributes = r'.attributes

/-- Rows of the same instant whose readings say the same, one after the other. -/
structure Row.Coincides (row row' : Row α) : Prop where
  nanos_eq : row.timestamp.nanos = row'.timestamp.nanos
  resource_eq : row.resource = row'.resource
  readings : List.Forall₂ Reading.Coincides row.readings row'.readings

namespace Row

variable {r r' : Reading α} {l l' : List (Reading α)} {row row' : Row α}

theorem place_coincides (h : List.Forall₂ Reading.Coincides l l') (hr : r.Coincides r') :
    List.Forall₂ Reading.Coincides (place r l) (place r' l') := by
  induction h with
  | nil => exact .cons hr .nil
  | @cons s s' _ _ hs hrest ih =>
    by_cases hsame : s.name = r.name
    · have hsame' : s'.name = r'.name := by rw [← hs.name_eq, hsame, hr.name_eq]
      rw [place, place, if_pos hsame, if_pos hsame']
      exact .cons hr hrest
    · have hsame' : ¬ s'.name = r'.name := by rwa [← hs.name_eq, ← hr.name_eq]
      rw [place, place, if_neg hsame, if_neg hsame']
      exact .cons hs ih

theorem insertAll_coincides (hrow : row.Coincides row')
    (h : List.Forall₂ Reading.Coincides l l') :
    (row.insertAll l).Coincides (row'.insertAll l') := by
  induction h generalizing row row' with
  | nil => exact hrow
  | cons hr _ ih =>
    exact ih ⟨hrow.nanos_eq, hrow.resource_eq, place_coincides hrow.readings hr⟩

theorem get?_coincides (h : row.Coincides row') (name : String) :
    Option.Rel Reading.Coincides (row.get? name) (row'.get? name) := by
  refine rel_find? h.readings fun r r' hr => ?_
  rw [hr.name_eq]

end Row

end Coincides

/-! ## Datasources and their samples -/

/-- The datasources read the same metric, give it the same label, and count the same milliseconds
as a heartbeat. -/
structure Datasource.Matches (ds ds' : Datasource) : Prop where
  label_eq : ds.label = ds'.label
  source_eq : ds.source = ds'.source
  millis_eq : ds.heartbeat.millis = ds'.heartbeat.millis

/-- The instants are the same, and so are the instants one heartbeat behind them. -/
structure Timestamp.Matches (ds ds' : Datasource) (t t' : Timestamp) : Prop where
  same : t.Same t'
  horizon : (t + ds.heartbeat).nanos = (t' + ds'.heartbeat).nanos

structure Sample.Matches (ds ds' : Datasource) (s s' : Sample) : Prop where
  timestamp : Timestamp.Matches ds ds' s.timestamp s'.timestamp
  value_eq : s.value = s'.value
  attributes_eq : s.attributes = s'.attributes

structure Coverage.Matches (ds ds' : Datasource) (c c' : Coverage) : Prop where
  last : Option.Rel (Timestamp.Matches ds ds') c.last c'.last
  known_eq : c.knownMillis = c'.knownMillis
  unknown_eq : c.unknownMillis = c'.unknownMillis
  weighted_eq : c.weighted = c'.weighted
  attributes_eq : c.attributes = c'.attributes

inductive CarryOver.Matches (ds ds' : Datasource) : CarryOver → CarryOver → Prop
  | found {s s' : Sample} (h : Sample.Matches ds ds' s s') : Matches ds ds' (.found s) (.found s')
  | stale : Matches ds ds' .stale .stale
  | ended : Matches ds ds' .ended .ended

section Match

variable {ds ds' : Datasource} {c c' : Coverage} {s s' : Sample}
  {floor floor' ceiling ceiling' : Timestamp}

namespace Coverage

theorem matches_empty (ds ds' : Datasource) : Matches ds ds' {} {} :=
  ⟨.none, rfl, rfl, rfl, rfl⟩

theorem isKnown_matches (h : ds.Matches ds') {t t' p p' : Timestamp} (ht : t.Same t')
    (hp : p.Same p') : isKnown t p ds.heartbeat = isKnown t' p' ds'.heartbeat := by
  rw [isKnown, isKnown, ht.millisSince hp, h.millis_eq]

namespace Matches

theorem credit (h : Matches ds ds' c c') (millis : Int) (known : Bool) (x : Float) :
    Matches ds ds' (c.credit millis known x) (c'.credit millis known x) := by
  obtain ⟨hlast, hk, hu, hw, ha⟩ := h
  cases known with
  | true => exact ⟨hlast, by simp [Coverage.credit, hk], hu, by simp [Coverage.credit, hw], ha⟩
  | false => exact ⟨hlast, hk, by simp [Coverage.credit, hu], hw, ha⟩

theorem attach (h : Matches ds ds' c c') (hs : Sample.Matches ds ds' s s') :
    Matches ds ds' (c.attach s) (c'.attach s') :=
  ⟨h.last, h.known_eq, h.unknown_eq, h.weighted_eq,
    by rw [Coverage.attach, Coverage.attach, h.attributes_eq, hs.attributes_eq]⟩

theorem reset (h : Matches ds ds' c c') : Matches ds ds' c.reset c'.reset :=
  ⟨h.last, rfl, rfl, rfl, rfl⟩

theorem average_eq (h : Matches ds ds' c c') : c.average = c'.average := by
  rw [Coverage.average, Coverage.average, h.known_eq, h.unknown_eq, h.weighted_eq]

theorem moved (h : Matches ds ds' c c') (hs : Sample.Matches ds ds' s s') :
    Matches ds ds' { c with last := some s.timestamp } { c' with last := some s'.timestamp } :=
  ⟨.some hs.timestamp, h.known_eq, h.unknown_eq, h.weighted_eq, h.attributes_eq⟩

theorem advance (h : Matches ds ds' c c') (hds : ds.Matches ds') (hf : floor.Same floor')
    (hs : Sample.Matches ds ds' s s') :
    Matches ds ds' (c.advance floor ds.heartbeat s) (c'.advance floor' ds'.heartbeat s') := by
  have hsame := hs.timestamp.same
  unfold Coverage.advance
  rcases rel_iff.1 h.last with ⟨hc, hc'⟩ | ⟨last, last', hc, hc', hlast⟩
  · rw [hc, hc']
    exact h.moved hs
  rw [hc, hc']
  dsimp only
  have hlower := hlast.same.later hf
  rw [← hsame.millisSince hlower, ← isKnown_matches hds hsame hlast.same, ← hs.value_eq]
  have hcredited : Matches ds ds'
      (if last.later floor < s.timestamp then
        c.credit (s.timestamp.millisSince (last.later floor))
          (isKnown s.timestamp last ds.heartbeat) s.value.number
        else c)
      (if last'.later floor' < s'.timestamp then
        c'.credit (s.timestamp.millisSince (last.later floor))
          (isKnown s.timestamp last ds.heartbeat) s.value.number
        else c') := by
    by_cases hlt : last.later floor < s.timestamp
    · rw [if_pos hlt, if_pos ((hlower.lt_iff hsame).1 hlt)]
      exact h.credit _ _ _
    · rw [if_neg hlt, if_neg (mt (hlower.lt_iff hsame).2 hlt)]
      exact h
  by_cases hlt : floor < s.timestamp
  · rw [if_pos hlt, if_pos ((hf.lt_iff hsame).1 hlt)]
    exact (hcredited.attach hs).moved hs
  · rw [if_neg hlt, if_neg (mt (hf.lt_iff hsame).2 hlt)]
    exact hcredited.moved hs

end Matches

end Coverage

end Match

/-! ## Tracks and rows -/

/-- The tracks are of two datasources that are read side by side, and have covered the same. -/
structure Track.Matches (D : Datasource → Datasource → Prop) (t t' : Track) : Prop where
  paired : D t.datasource t'.datasource
  datasource : t.datasource.Matches t'.datasource
  coverage : Coverage.Matches t.datasource t'.datasource t.coverage t'.coverage

/-- The rows are of the same instant, and have matching samples for all datasources that are read
side by side. -/
structure Row.Matches (D : Datasource → Datasource → Prop) (row row' : Row Value) : Prop where
  nanos_eq : row.timestamp.nanos = row'.timestamp.nanos
  samples : ∀ ds ds', D ds ds' →
    Option.Rel (Sample.Matches ds ds') (row.get? ds.source) (row'.get? ds'.source)

section Tracks

variable {D : Datasource → Datasource → Prop} {t t' : Track} {tracks tracks' : List Track}
  {row row' : Row Value} {floor floor' ceiling ceiling' : Timestamp}

namespace Track.Matches

theorem advance (h : Track.Matches D t t') (hf : floor.Same floor')
    (hrow : Row.Matches D row row') :
    Track.Matches D (t.advance floor row) (t'.advance floor' row') := by
  unfold Track.advance
  rcases rel_iff.1 (hrow.samples _ _ h.paired) with ⟨hs, hs'⟩ | ⟨s, s', hs, hs', hmatch⟩
  · rwa [hs, hs']
  · rw [hs, hs']
    exact ⟨h.paired, h.datasource, h.coverage.advance h.datasource hf hmatch⟩

theorem reset (h : Track.Matches D t t') : Track.Matches D t.reset t'.reset :=
  ⟨h.paired, h.datasource, h.coverage.reset⟩

end Track.Matches

theorem CarryOver.Matches.carry {c c' : CarryOver} {last last' : Timestamp}
    (h : CarryOver.Matches t.datasource t'.datasource c c') (ht : Track.Matches D t t')
    (hf : floor.Same floor') (hc : ceiling.Same ceiling') (hlast : last.Same last') :
    Track.Matches D (Resampling.carry t floor ceiling last c)
      (Resampling.carry t' floor' ceiling' last' c') := by
  have hmillis := hc.millisSince (hlast.later hf)
  cases h with
  | found hs =>
    have hknown := Coverage.isKnown_matches ht.datasource hs.timestamp.same hlast
    refine ⟨ht.paired, ht.datasource, ?_⟩
    simp only [Resampling.carry, ← hmillis, ← hknown, ← hs.value_eq]
    exact (ht.coverage.credit _ _ _).attach hs
  | stale =>
    refine ⟨ht.paired, ht.datasource, ?_⟩
    simp only [Resampling.carry, ← hmillis]
    exact ht.coverage.credit _ false unknown
  | ended => exact ht

namespace Resampling

theorem advanceAll_matches (h : List.Forall₂ (Track.Matches D) tracks tracks')
    (hf : floor.Same floor') (hrow : Row.Matches D row row') :
    List.Forall₂ (Track.Matches D) (advanceAll tracks floor row)
      (advanceAll tracks' floor' row') := by
  rw [advanceAll, advanceAll, List.forall₂_map_left_iff, List.forall₂_map_right_iff]
  exact h.imp fun _ _ ht => ht.advance hf hrow

theorem absorbAhead_matches {ahead ahead' : List (Row Value)} (hf : floor.Same floor')
    (hc : ceiling.Same ceiling') (h : List.Forall₂ (Track.Matches D) tracks tracks')
    (hahead : List.Forall₂ (Row.Matches D) ahead ahead') :
    List.Forall₂ (Track.Matches D) (absorbAhead floor ceiling tracks ahead).1
        (absorbAhead floor' ceiling' tracks' ahead').1 ∧
      List.Forall₂ (Row.Matches D) (absorbAhead floor ceiling tracks ahead).2
        (absorbAhead floor' ceiling' tracks' ahead').2 := by
  induction hahead generalizing tracks tracks' with
  | nil => exact ⟨h, .nil⟩
  | @cons row row' _ _ hrow hrest ih =>
    have hle : row.timestamp ≤ ceiling ↔ row'.timestamp ≤ ceiling' := by
      rw [Timestamp.le_iff, Timestamp.le_iff, hrow.nanos_eq, hc.1]
    rw [absorbAhead, absorbAhead]
    by_cases hin : row.timestamp ≤ ceiling
    · rw [if_pos hin, if_pos (hle.1 hin)]
      exact ih (advanceAll_matches h hf hrow)
    · rw [if_neg hin, if_neg (mt hle.2 hin)]
      exact ⟨h, .cons hrow hrest⟩

/-- The items that are still to be read match. -/
abbrev FeedMatches (D : Datasource → Datasource → Prop) (input input' : Feed Value) : Prop :=
  List.Forall₂ (Likewise (Row.Matches D)) input input'

/-- The tracks match after a reading, the rows read ahead and the rest of the input as well, and
both readings came to their end in the same way. -/
structure OutcomeMatches (D : Datasource → Datasource → Prop)
    (a b : List Track × Option QueryError × List (Row Value) × Feed Value) : Prop where
  tracks : List.Forall₂ (Track.Matches D) a.1 b.1
  error_eq : a.2.1 = b.2.1
  ahead : List.Forall₂ (Row.Matches D) a.2.2.1 b.2.2.1
  input : FeedMatches D a.2.2.2 b.2.2.2

variable {input input' : Feed Value}

theorem absorbInput_matches (hf : floor.Same floor') (hc : ceiling.Same ceiling')
    (h : List.Forall₂ (Track.Matches D) tracks tracks') (hinput : FeedMatches D input input') :
    OutcomeMatches D (absorbInput floor ceiling tracks input)
      (absorbInput floor' ceiling' tracks' input') := by
  induction hinput generalizing tracks tracks' with
  | nil => exact ⟨h, rfl, .nil, .nil⟩
  | cons hitem hrest ih =>
    cases hitem with
    | error e => exact ⟨h, rfl, .nil, hrest⟩
    | @ok row row' hrow =>
      have hle : row.timestamp ≤ ceiling ↔ row'.timestamp ≤ ceiling' := by
        rw [Timestamp.le_iff, Timestamp.le_iff, hrow.nanos_eq, hc.1]
      rw [absorbInput, absorbInput]
      by_cases hin : row.timestamp ≤ ceiling
      · rw [if_pos hin, if_pos (hle.1 hin)]
        exact ih (advanceAll_matches h hf hrow)
      · rw [if_neg hin, if_neg (mt hle.2 hin)]
        exact ⟨h, rfl, .cons hrow .nil, hrest⟩

/-! ## Behind the end of the bucket -/

section Seek

variable {ds ds' : Datasource} {horizon horizon' : Timestamp} {ahead ahead' : List (Row Value)}

theorem judge?_matches (hds : D ds ds') (hh : horizon.nanos = horizon'.nanos)
    (hrow : Row.Matches D row row') :
    Option.Rel (CarryOver.Matches ds ds') (judge? ds.source horizon row)
      (judge? ds'.source horizon' row') := by
  unfold judge?
  rcases rel_iff.1 (hrow.samples ds ds' hds) with ⟨hs, hs'⟩ | ⟨s, s', hs, hs', hmatch⟩
  · have hle : horizon ≤ row.timestamp ↔ horizon' ≤ row'.timestamp := by
      rw [Timestamp.le_iff, Timestamp.le_iff, hrow.nanos_eq, hh]
    rw [hs, hs']
    dsimp only
    by_cases hlapsed : horizon ≤ row.timestamp
    · rw [if_pos hlapsed, if_pos (hle.1 hlapsed)]
      exact .some .stale
    · rw [if_neg hlapsed, if_neg (mt hle.2 hlapsed)]
      exact .none
  · rw [hs, hs']
    exact .some (.found hmatch)

/-- What was found matches, and so do the rows read ahead and the rest of the input. -/
structure AnswerMatches (D : Datasource → Datasource → Prop) (ds ds' : Datasource)
    (a b : Except QueryError CarryOver × List (Row Value) × Feed Value) : Prop where
  answer : Likewise (CarryOver.Matches ds ds') a.1 b.1
  ahead : List.Forall₂ (Row.Matches D) a.2.1 b.2.1
  input : FeedMatches D a.2.2 b.2.2

theorem seekInput_matches (hds : D ds ds') (hh : horizon.nanos = horizon'.nanos)
    (hinput : FeedMatches D input input') :
    AnswerMatches D ds ds' (seekInput ds.source horizon input)
      (seekInput ds'.source horizon' input') := by
  induction hinput with
  | nil => exact ⟨.ok .ended, .nil, .nil⟩
  | cons hitem hrest ih =>
    cases hitem with
    | error e => exact ⟨.error e, .nil, hrest⟩
    | ok hrow =>
      rw [seekInput, seekInput]
      rcases rel_iff.1 (judge?_matches hds hh hrow) with ⟨hj, hj'⟩ | ⟨c, c', hj, hj', hmatch⟩
      · rw [hj, hj']
        exact ⟨ih.answer, .cons hrow ih.ahead, ih.input⟩
      · rw [hj, hj']
        exact ⟨.ok hmatch, .cons hrow .nil, hrest⟩

theorem seek_matches (hds : D ds ds') (hh : horizon.nanos = horizon'.nanos)
    (hahead : List.Forall₂ (Row.Matches D) ahead ahead') (hinput : FeedMatches D input input') :
    AnswerMatches D ds ds' (seek ds.source horizon ahead input)
      (seek ds'.source horizon' ahead' input') := by
  have hfind := rel_findSome? hahead fun _ _ hrow => judge?_matches hds hh hrow
  rw [seek, seek]
  rcases rel_iff.1 hfind with ⟨hj, hj'⟩ | ⟨c, c', hj, hj', hmatch⟩
  · rw [hj, hj']
    have hseek := seekInput_matches hds hh hinput
    exact ⟨hseek.answer, List.rel_append hahead hseek.ahead, hseek.input⟩
  · rw [hj, hj']
    exact ⟨.ok hmatch, hahead, hinput⟩

end Seek

/-- The induction runs over the tracks; what was read for one of them is at hand for the next. -/
theorem complete_matches {ahead ahead' : List (Row Value)} (hf : floor.Same floor')
    (hc : ceiling.Same ceiling') (h : List.Forall₂ (Track.Matches D) tracks tracks')
    (hahead : List.Forall₂ (Row.Matches D) ahead ahead') (hinput : FeedMatches D input input') :
    OutcomeMatches D (complete floor ceiling tracks ahead input)
      (complete floor' ceiling' tracks' ahead' input') := by
  induction h generalizing ahead ahead' input input' with
  | nil => exact ⟨.nil, rfl, hahead, hinput⟩
  | @cons t t' rest rest' ht hrest ih =>
    rw [complete, complete]
    rcases rel_iff.1 ht.coverage.last with ⟨hl, hl'⟩ | ⟨last, last', hl, hl', hlast⟩
    · rw [hl, hl']
      have hothers := ih hahead hinput
      exact ⟨.cons ht hothers.tracks, hothers.error_eq, hothers.ahead, hothers.input⟩
    rw [hl, hl']
    dsimp only
    by_cases hle : ceiling ≤ last
    · rw [if_pos hle, if_pos ((hc.le_iff hlast.same).1 hle)]
      have hothers := ih hahead hinput
      exact ⟨.cons ht hothers.tracks, hothers.error_eq, hothers.ahead, hothers.input⟩
    rw [if_neg hle, if_neg (mt (hc.le_iff hlast.same).2 hle)]
    have hseek := seek_matches ht.paired hlast.horizon hahead hinput
    generalize seek t.datasource.source (last + t.datasource.heartbeat) ahead input = found at hseek
    generalize seek t'.datasource.source (last' + t'.datasource.heartbeat) ahead' input' = found'
      at hseek
    obtain ⟨answer, ahead, input⟩ := found
    obtain ⟨answer', ahead', input'⟩ := found'
    obtain ⟨hanswer, hahead, hinput⟩ := hseek
    cases hanswer with
    | error e => exact ⟨.cons ht hrest, rfl, hahead, hinput⟩
    | ok hcarry =>
      have hothers := ih hahead hinput
      exact ⟨.cons (hcarry.carry ht hf hc hlast.same) hothers.tracks, hothers.error_eq,
        hothers.ahead, hothers.input⟩

/-! ## Points -/

/-- Both runs have read and taken into account the same. -/
structure Matches (D : Datasource → Datasource → Prop) (r r' : Resampling) : Prop where
  resource_eq : r.resource = r'.resource
  tracks : List.Forall₂ (Track.Matches D) r.tracks r'.tracks
  lookahead : List.Forall₂ (Row.Matches D) r.lookahead r'.lookahead
  input : FeedMatches D r.input r'.input

variable {r r' : Resampling}

theorem absorb_matches (h : Matches D r r') (hf : floor.Same floor') (hc : ceiling.Same ceiling') :
    (r.absorb floor ceiling).1 = (r'.absorb floor' ceiling').1 ∧
      Matches D (r.absorb floor ceiling).2 (r'.absorb floor' ceiling').2 := by
  have habsorb := absorbAhead_matches hf hc h.tracks h.lookahead
  rw [absorb, absorb]
  generalize absorbAhead floor ceiling r.tracks r.lookahead = early at habsorb
  generalize absorbAhead floor' ceiling' r'.tracks r'.lookahead = early' at habsorb
  obtain ⟨tracks, ahead⟩ := early
  obtain ⟨tracks', ahead'⟩ := early'
  obtain ⟨htracks, hahead⟩ := habsorb
  cases hahead with
  | nil =>
    have hinput := absorbInput_matches hf hc htracks h.input
    exact ⟨hinput.error_eq, h.resource_eq, hinput.tracks, hinput.ahead, hinput.input⟩
  | cons hrow hrest => exact ⟨rfl, h.resource_eq, htracks, .cons hrow hrest, h.input⟩

theorem pointOf_coincides (h : List.Forall₂ (Track.Matches D) tracks tracks')
    (hc : ceiling.Same ceiling') (resource : String) :
    (pointOf resource ceiling tracks).Coincides (pointOf resource ceiling' tracks') := by
  refine Row.insertAll_coincides ⟨hc.1, rfl, .nil⟩ ?_
  rw [List.forall₂_map_left_iff, List.forall₂_map_right_iff]
  exact h.imp fun t t' ht => ⟨hc.1, rfl, ht.datasource.label_eq, ht.coverage.average_eq,
    ht.coverage.attributes_eq⟩

/-- Bucket by bucket, the runs are asked for the same instant and begin it at the same instant. -/
abbrev CeilingMatches (step step' : Duration) (c c' : Timestamp) : Prop :=
  c.Same c' ∧ (c - step).Same (c' - step')

theorem points_absorb (r : Resampling) (floor ceiling : Timestamp) :
    (r.absorb floor ceiling).2.points = r.points := by
  unfold absorb
  split <;> rfl

theorem points_of_close? {closed : Except QueryError Closing} {s : Resampling} {points : Lattice}
    (hp : r.points.next? = some (ceiling, points)) (h : r.close? = some (closed, s)) :
    s.points = points := by
  have habsorb := points_absorb { r with points } (ceiling - points.interval) ceiling
  simp only [close?, hp, Option.map_some, Option.some.injEq] at h
  split at h
  · cases h
    simpa only [*] using habsorb
  · split at h
    · cases h
      simpa only [*] using habsorb
    · cases h
      simpa only [*] using habsorb

/-- Both runs meet the same error on the way to the end of the next bucket, or their tracks match
there. -/
theorem close?_matches (h : Matches D r r') {points points' : Lattice}
    (hp : r.points.next? = some (ceiling, points))
    (hp' : r'.points.next? = some (ceiling', points'))
    (hc : CeilingMatches points.interval points'.interval ceiling ceiling') :
    ∃ closed closed' s s', r.close? = some (closed, s) ∧ r'.close? = some (closed', s') ∧
      Likewise (fun cl cl' => cl.ceiling = ceiling ∧ cl'.ceiling = ceiling' ∧
        List.Forall₂ (Track.Matches D) cl.tracks cl'.tracks) closed closed' ∧
      Matches D s s' := by
  obtain ⟨hceiling, hfloor⟩ := hc
  have hstart : Matches D { r with points } { r' with points := points' } :=
    ⟨h.resource_eq, h.tracks, h.lookahead, h.input⟩
  have habsorb := absorb_matches hstart hfloor hceiling
  simp only [close?, hp, hp', Option.map_some]
  generalize { r with points }.absorb (ceiling - points.interval) ceiling = early at habsorb
  generalize { r' with points := points' }.absorb (ceiling' - points'.interval) ceiling' = early'
    at habsorb
  obtain ⟨failure, s⟩ := early
  obtain ⟨failure', s'⟩ := early'
  obtain ⟨rfl, hs⟩ := habsorb
  cases failure with
  | some e => exact ⟨_, _, _, _, rfl, rfl, .error e, hs⟩
  | none =>
    have hcomplete := complete_matches hfloor hceiling hs.tracks hs.lookahead hs.input
    dsimp only
    generalize complete (ceiling - points.interval) ceiling s.tracks s.lookahead s.input = done
      at hcomplete
    generalize complete (ceiling' - points'.interval) ceiling' s'.tracks s'.lookahead s'.input =
      done' at hcomplete
    obtain ⟨tracks, failure, ahead, input⟩ := done
    obtain ⟨tracks', failure', ahead', input'⟩ := done'
    obtain ⟨htracks, rfl, hahead, hinput⟩ := hcomplete
    cases failure with
    | some e => exact ⟨_, _, _, _, rfl, rfl, .error e, hs.resource_eq, htracks, hahead, hinput⟩
    | none =>
      have hreset : List.Forall₂ (Track.Matches D) (tracks.map Track.reset)
          (tracks'.map Track.reset) := by
        rw [List.forall₂_map_left_iff, List.forall₂_map_right_iff]
        exact htracks.imp fun _ _ ht => ht.reset
      exact ⟨_, _, _, _, rfl, rfl, .ok ⟨rfl, rfl, htracks⟩, hs.resource_eq, hreset, hahead, hinput⟩

/-- Both runs meet the same error on the way to the next point, or they make points that show the
same. -/
theorem next?_matches (h : Matches D r r') {points points' : Lattice}
    (hp : r.points.next? = some (ceiling, points))
    (hp' : r'.points.next? = some (ceiling', points'))
    (hc : CeilingMatches points.interval points'.interval ceiling ceiling') :
    ∃ item item' s s', r.next? = some (item, s) ∧ r'.next? = some (item', s') ∧
      s.points = points ∧ s'.points = points' ∧
      Likewise Row.Coincides item item' ∧ Matches D s s' := by
  obtain ⟨closed, closed', s, s', hclose, hclose', hclosed, hs⟩ := close?_matches h hp hp' hc
  refine ⟨_, _, s, s', next?_of_close? hclose, next?_of_close? hclose',
    points_of_close? hp hclose, points_of_close? hp' hclose', ?_, hs⟩
  cases hclosed with
  | error e => exact .error e
  | @ok cl cl' hcl =>
    obtain ⟨rfl, rfl, htracks⟩ := hcl
    refine .ok ?_
    rw [← h.resource_eq]
    exact pointOf_coincides htracks hc.1 r.resource

/-- The induction runs over the requests. -/
theorem unfold_coincides (n : Nat) (h : Matches D r r')
    (hpoints : List.Forall₂ (CeilingMatches r.points.interval r'.points.interval)
      (r.points.take n) (r'.points.take n)) :
    List.Forall₂ (Likewise Row.Coincides) (Feed.unfold next? n r) (Feed.unfold next? n r') := by
  induction n generalizing r r' with
  | zero => exact .nil
  | succ n ih =>
    rw [Feed.unfold, Feed.unfold]
    rw [Lattice.take, Lattice.take] at hpoints
    cases hp : r.points.next? with
    | none =>
      rw [hp] at hpoints
      cases hp' : r'.points.next? with
      | none => simp [next?_of_none hp, next?_of_none hp']
      | some step' =>
        rw [hp'] at hpoints
        cases hpoints
    | some step =>
      obtain ⟨ceiling, points⟩ := step
      rw [hp] at hpoints
      cases hp' : r'.points.next? with
      | none =>
        rw [hp'] at hpoints
        cases hpoints
      | some step' =>
        obtain ⟨ceiling', points'⟩ := step'
        rw [hp'] at hpoints
        obtain ⟨hc, hrest⟩ := List.forall₂_cons.1 hpoints
        rw [← Lattice.interval_of_next? hp, ← Lattice.interval_of_next? hp'] at hc hrest
        obtain ⟨item, item', s, s', hnext, hnext', rfl, rfl, hitem, hs⟩ :=
          next?_matches h hp hp' hc
        rw [hnext, hnext']
        exact .cons hitem (ih hs hrest)

end Resampling

end Tracks

end Telemetry
