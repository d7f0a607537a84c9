import Telemetry.Feed.Scan
import Telemetry.Proofs.Feed
import Telemetry.Proofs.Row

/-!
# What a scan lets through

A scan answers each item of its source with the row itself or with an error. What it remembers is
the last row that it has let through, so an item that it answers with an error leaves no trace: the
other answers are those of a scan of the same source without that item.

Rows of the scanned resource in ascending order come through unchanged, and there are no others
among the answers.
-/

namespace Telemetry.Feed

variable {α : Type} {resource : String} {last : Option Timestamp} {rows : List (Row α)}

/-! ## One answer after the other -/

/-- The instant of the last row among the answers of a scan, or of the one before them. -/
def lastAfter (last : Option Timestamp) (answers : Feed α) : Option Timestamp :=
  ((rowsOf answers).getLast?.map (·.timestamp)).or last

@[simp] theorem lastAfter_ok (row : Row α) : lastAfter last [.ok row] = some row.timestamp := rfl

@[simp] theorem lastAfter_error (e : QueryError) :
    lastAfter last ([.error e] : Feed α) = last := rfl

theorem lastAfter_append (last : Option Timestamp) (answers answers' : Feed α) :
    lastAfter last (answers ++ answers') = lastAfter (lastAfter last answers) answers' := by
  simp [lastAfter, List.getLast?_append, Option.map_or, Option.or_assoc]

theorem lastAfter_cons (last : Option Timestamp) (answer : Except QueryError (Row α))
    (answers : Feed α) :
    lastAfter last (answer :: answers) = lastAfter (lastAfter last [answer]) answers :=
  lastAfter_append last [answer] answers

theorem letThrough_eq_ok_iff {row out : Row α} : letThrough resource last row = .ok out ↔
    row = out ∧ row.resource = resource ∧ ∀ t ∈ last, t < row.timestamp := by
  unfold letThrough
  split
  next hne => exact ⟨nofun, fun h => absurd h.2.1 hne⟩
  next heq =>
    rw [not_not] at heq
    cases last with
    | none => simp [heq]
    | some t =>
      simp only [Option.mem_def, Option.some.injEq, forall_eq', heq, true_and]
      split
      next hle =>
        exact ⟨nofun, fun h => absurd (Timestamp.le_iff.1 hle) (Timestamp.lt_iff.1 h.2).not_ge⟩
      next hnot =>
        have hlt : t < row.timestamp := Timestamp.lt_iff.2 (not_le.1 (mt Timestamp.le_iff.2 hnot))
        simp [hlt]

/-- An item is answered with a row if it is that row, of the resource and later than the last. -/
theorem answer_eq_ok_iff {item : Except QueryError (Row α)} {row : Row α} :
    item.bind (letThrough resource last) = .ok row ↔
      item = .ok row ∧ row.resource = resource ∧ ∀ t ∈ last, t < row.timestamp := by
  cases item with
  | error e => simp [Except.bind]
  | ok first =>
    rw [Except.bind, letThrough_eq_ok_iff, Except.ok.injEq]
    exact ⟨by rintro ⟨rfl, h⟩; exact ⟨rfl, h⟩, by rintro ⟨rfl, h⟩; exact ⟨rfl, h⟩⟩

theorem scanFrom_cons (last : Option Timestamp) (item : Except QueryError (Row α))
    (rest : Feed α) :
    scanFrom resource last (item :: rest) =
      item.bind (letThrough resource last) ::
        scanFrom resource (lastAfter last [item.bind (letThrough resource last)]) rest := by
  cases item with
  | error e => rfl
  | ok row =>
    rw [scanFrom, Except.bind]
    cases letThrough resource last row <;> rfl

@[simp] theorem length_scanFrom (resource : String) (last : Option Timestamp) (feed : Feed α) :
    (scanFrom resource last feed).length = feed.length := by
  induction feed generalizing last with
  | nil => rfl
  | cons item rest ih => rw [scanFrom_cons, List.length_cons, List.length_cons, ih]

/-- A scan goes on from where its answers have led to. -/
theorem scanFrom_append (last : Option Timestamp) (feed feed' : Feed α) :
    scanFrom resource last (feed ++ feed') = scanFrom resource last feed ++
      scanFrom resource (lastAfter last (scanFrom resource last feed)) feed' := by
  induction feed generalizing last with
  | nil => rfl
  | cons item rest ih =>
    rw [List.cons_append, scanFrom_cons, ih, scanFrom_cons, List.cons_append, ← lastAfter_cons]

theorem take_scanFrom (last : Option Timestamp) (feed : Feed α) (n : Nat) :
    (scanFrom resource last feed).take n = scanFrom resource last (feed.take n) := by
  induction feed generalizing last n with
  | nil => simp [scanFrom]
  | cons item rest ih =>
    cases n with
    | zero => rfl
    | succ n => rw [scanFrom_cons, List.take_succ_cons, ih, List.take_succ_cons, scanFrom_cons]

theorem drop_scanFrom (last : Option Timestamp) (feed : Feed α) (n : Nat) :
    (scanFrom resource last feed).drop n =
      scanFrom resource (lastAfter last ((scanFrom resource last feed).take n)) (feed.drop n) := by
  induction feed generalizing last n with
  | nil => simp [scanFrom]
  | cons item rest ih =>
    cases n with
    | zero => rfl
    | succ n =>
      rw [scanFrom_cons, List.drop_succ_cons, ih, List.take_succ_cons, ← lastAfter_cons,
        List.drop_succ_cons]

/-- An item is answered as it is right after the last row among the answers before. -/
theorem getElem?_scanFrom (last : Option Timestamp) (feed : Feed α) (n : Nat) :
    (scanFrom resource last feed)[n]? = feed[n]?.map fun item =>
      item.bind (letThrough resource (lastAfter last ((scanFrom resource last feed).take n))) := by
  induction feed generalizing last n with
  | nil => rfl
  | cons item rest ih =>
    rw [scanFrom_cons]
    cases n with
    | zero => rfl
    | succ n =>
      rw [List.getElem?_cons_succ, ih, List.getElem?_cons_succ, List.take_succ_cons,
        ← lastAfter_cons]

theorem scanFrom_eraseIdx {feed : Feed α} {n : Nat} {e : QueryError}
    (h : (scanFrom resource last feed)[n]? = some (.error e)) :
    scanFrom resource last (feed.eraseIdx n) = (scanFrom resource last feed).eraseIdx n := by
  have htake : (scanFrom resource last feed).take (n + 1) =
      (scanFrom resource last feed).take n ++ [.error e] := by
    rw [List.take_add_one, h, Option.toList_some]
  rw [List.eraseIdx_eq_take_drop_succ, scanFrom_append, ← take_scanFrom,
    List.eraseIdx_eq_take_drop_succ, drop_scanFrom, htake, lastAfter_append, lastAfter_error]

/-! ## Rows that are let through -/

/-- Rows that a scan lets through: all of one resource, each later than the one before it. -/
structure Valid (resource : String) (rows : List (Row α)) : Prop where
  resource_eq : ∀ row ∈ rows, row.resource = resource
  ascending : Row.Ascending rows

/-- The induction runs over the rows; `last` is the row before them. -/
theorem scanFrom_ofRows (h : Valid resource rows)
    (hlater : ∀ t ∈ last, ∀ row ∈ rows, t < row.timestamp) :
    scanFrom resource last (ofRows rows) = ofRows rows := by
  induction rows generalizing last with
  | nil => rfl
  | cons row rest ih =>
    obtain ⟨hfirst, hrest⟩ := List.pairwise_cons.1 h.ascending
    have hok : (Except.ok row).bind (letThrough resource last) = .ok row :=
      answer_eq_ok_iff.2 ⟨rfl, h.resource_eq row List.mem_cons_self,
        fun t ht => hlater t ht row List.mem_cons_self⟩
    have hvalid : Valid resource rest :=
      ⟨fun row hrow => h.resource_eq row (List.mem_cons_of_mem _ hrow), hrest⟩
    rw [ofRows_cons, scanFrom_cons, hok, lastAfter_ok, ih hvalid (by simpa using hfirst)]

theorem scan_append (h : Valid resource rows) (tail : Feed α) :
    scan resource (ofRows rows ++ tail) =
      ofRows rows ++ scanFrom resource (rows.getLast?.map (·.timestamp)) tail := by
  rw [scan, scanFrom_append, scanFrom_ofRows h (by simp), lastAfter, rowsOf_ofRows,
    Option.or_none]

theorem scan_ofRows (h : Valid resource rows) : scan resource (ofRows rows) = ofRows rows :=
  scanFrom_ofRows h (by simp)

/-- The rows among the answers are valid, and later than the row before them. -/
theorem valid_scanFrom (resource : String) (last : Option Timestamp) (feed : Feed α) :
    Valid resource (rowsOf (scanFrom resource last feed)) ∧
      ∀ t ∈ last, ∀ row ∈ rowsOf (scanFrom resource last feed), t < row.timestamp := by
  induction feed generalizing last with
  | nil => exact ⟨⟨by simp [scanFrom], .nil⟩, by simp [scanFrom]⟩
  | cons item rest ih =>
    rw [scanFrom_cons]
    cases hanswer : item.bind (letThrough resource last) with
    | error e => exact ih last
    | ok row =>
      obtain ⟨-, hresource, hlater⟩ := answer_eq_ok_iff.1 hanswer
      obtain ⟨⟨hresources, hascending⟩, hafter⟩ := ih (some row.timestamp)
      have hrows : ∀ row' ∈ rowsOf (scanFrom resource (some row.timestamp) rest),
          row.timestamp < row'.timestamp := hafter _ rfl
      rw [lastAfter_ok, rowsOf_cons_ok]
      refine ⟨⟨List.forall_mem_cons.2 ⟨hresource, hresources⟩,
        List.pairwise_cons.2 ⟨hrows, hascending⟩⟩, fun t ht => ?_⟩
      refine List.forall_mem_cons.2 ⟨hlater t ht, fun row' hrow' => ?_⟩
      have hfirst := Timestamp.lt_iff.1 (hlater t ht)
      exact Timestamp.lt_iff.2 (hfirst.trans (Timestamp.lt_iff.1 (hrows row' hrow')))

/-- The rows among the answers are rows of the source, in their order. -/
theorem rowsOf_scanFrom_sublist (resource : String) (last : Option Timestamp) (feed : Feed α) :
    (rowsOf (scanFrom resource last feed)).Sublist (rowsOf feed) := by
  induction feed generalizing last with
  | nil => exact .slnil
  | cons item rest ih =>
    rw [scanFrom_cons]
    cases hanswer : item.bind (letThrough resource last) with
    | error e =>
      cases item with
      | error e => exact ih _
      | ok row => exact (ih _).cons row
    | ok row =>
      obtain ⟨rfl, -, -⟩ := answer_eq_ok_iff.1 hanswer
      exact (ih _).cons_cons row

/-! ## Items that are not let through -/

/-- The item behind valid rows is not one of them, and what says so is an error with this kind and
this message: the samples cannot be read on, or a row belongs to another resource, or it is not
later than the last one. -/
inductive Failing (resource : String) (rows : List (Row α)) :
    Except QueryError (Row α) → QueryErrorKind → String → Prop
  | unreadable (cause : SourceError) :
    Failing resource rows (.error (.unreadable cause)) .source cause.message
  | foreign (row : Row α) (h : row.resource ≠ resource) :
    Failing resource rows (.ok row) .consistency
      ("row for resource '" ++ row.resource ++ "' in scan of '" ++ resource ++ "'")
  | stale (row last : Row α) (hresource : row.resource = resource)
      (hlast : rows.getLast? = some last) (hle : row.timestamp ≤ last.timestamp) :
    Failing resource rows (.ok row) .consistency
      ("row at " ++ row.timestamp.text ++ " does not follow row at " ++ last.timestamp.text)

theorem scan_failing {item : Except QueryError (Row α)} {kind : QueryErrorKind} {message : String}
    (h : Valid resource rows) (hfail : Failing resource rows item kind message) (later : Feed α) :
    ∃ e later', e.kind = kind ∧ e.message = message ∧
      scan resource (ofRows rows ++ item :: later) = ofRows rows ++ .error e :: later' := by
  rw [scan_append h]
  cases hfail with
  | unreadable cause => exact ⟨.unreadable cause, _, rfl, rfl, rfl⟩
  | foreign row hne =>
    have hanswer : letThrough resource (rows.getLast?.map (·.timestamp)) row =
        .error (.foreignRow row.resource resource) := if_pos hne
    exact ⟨_, _, rfl, rfl, by rw [scanFrom, hanswer]⟩
  | stale row last hresource hlast hle =>
    have hanswer : letThrough resource (rows.getLast?.map (·.timestamp)) row =
        .error (.outOfOrder row.timestamp last.timestamp) := by
      simp [letThrough, hresource, hlast, hle]
    exact ⟨_, _, rfl, rfl, by rw [scanFrom, hanswer]⟩

theorem failing_of_letThrough {row : Row α} {e : QueryError}
    (h : letThrough resource (rows.getLast?.map (·.timestamp)) row = .error e) :
    Failing resource rows (.ok row) e.kind e.message := by
  unfold letThrough at h
  split at h
  next hne =>
    cases h
    exact .foreign row hne
  next heq =>
    cases hlast : rows.getLast? with
    | none => simp [hlast] at h
    | some last =>
      rw [hlast, Option.map_some] at h
      dsimp only at h
      split at h
      next hle =>
        cases h
        exact .stale row last (not_not.1 heq) hlast hle
      next => cases h

/-! ## A scan as a filter -/

/-- The items of a source, as a scan reads them. -/
def ofSource (stream : List (Except SourceError (Row α))) : Feed α :=
  stream.map (Except.mapError .unreadable)

theorem mapError_eq_ok_iff {item : Except SourceError (Row α)} {row : Row α} :
    item.mapError QueryError.unreadable = .ok row ↔ item = .ok row := by
  cases item <;> simp [Except.mapError]

theorem ofSource_eraseIdx (stream : List (Except SourceError (Row α))) (n : Nat) :
    ofSource (stream.eraseIdx n) = (ofSource stream).eraseIdx n := by
  simp [ofSource, List.eraseIdx_eq_take_drop_succ, List.map_take, List.map_drop]

/-- The items of a stream that are answered with rows. -/
def kept (stream : List (Except SourceError (Row α))) (answers : Feed α) :
    List (Except SourceError (Row α)) :=
  ((stream.zip answers).filter (·.2.isOk)).map (·.1)

theorem ofSource_kept (resource : String) (last : Option Timestamp)
    (stream : List (Except SourceError (Row α))) :
    ofSource (kept stream (scanFrom resource last (ofSource stream))) =
      ofRows (rowsOf (scanFrom resource last (ofSource stream))) := by
  induction stream generalizing last with
  | nil => rfl
  | cons item rest ih =>
    have hcons : ofSource (item :: rest) = item.mapError .unreadable :: ofSource rest := rfl
    rw [hcons, scanFrom_cons]
    cases hanswer : (item.mapError QueryError.unreadable).bind (letThrough resource last) with
    | error e => exact ih last
    | ok row =>
      obtain rfl := mapError_eq_ok_iff.1 (answer_eq_ok_iff.1 hanswer).1
      rw [rowsOf_cons_ok, ofRows_cons, ← ih]
      rfl

/-- How a scan of a resource answers an item when these rows have been let through. -/
structure Judged (resource : String) (passed : List (Row α)) (item : Except SourceError (Row α))
    (answer : Except QueryError (Row α)) : Prop where
  /-- The answer is a row if and only if the item is that row, it is one of the resource, and it is
  later than the last that was let through. -/
  ok_iff : ∀ row, answer = .ok row ↔ item = .ok row ∧ row.resource = resource ∧
    ∀ last ∈ passed.getLast?, last.timestamp < row.timestamp
  /-- An error has the kind and the message that the item calls for. -/
  failing : ∀ e, answer = .error e →
    Failing resource passed (item.mapError .unreadable) e.kind e.message
  unreadable : ∀ cause, item = .error cause → answer = .error (.unreadable cause)

theorem judged_answer (resource : String) (passed : List (Row α))
    (item : Except SourceError (Row α)) :
    Judged resource passed item ((item.mapError .unreadable).bind
      (letThrough resource (passed.getLast?.map (·.timestamp)))) where
  ok_iff row := by
    rw [answer_eq_ok_iff, mapError_eq_ok_iff]
    simp
  failing e he := by
    cases item with
    | error cause =>
      cases he
      exact .unreadable cause
    | ok row => exact failing_of_letThrough he
  unreadable cause h := h ▸ rfl

/-- How a scan of a resource answers the items of a stream. -/
structure Filters (resource : String) (stream : List (Except SourceError (Row α)))
    (answers : Feed α) : Prop where
  /-- Each request takes one item from the stream, and behind its end there is no answer. -/
  pulls_eq : ∀ n, answers.pulls n = (scan resource (ofSource (stream.take n))).map some ++
    List.replicate (n - stream.length) none
  /-- The answers to come depend on the items that are left, and on the last row let through. -/
  drop_eq : ∀ n, answers.drop n = scanFrom resource
    ((rowsOf (answers.take n)).getLast?.map (·.timestamp)) (ofSource (stream.drop n))
  sublist : ∀ n, (rowsOf (answers.take n)).Sublist (rowsOf (ofSource (stream.take n)))
  valid : ∀ n, Valid resource (rowsOf (answers.take n))
  judged : ∀ n item, stream[n]? = some item →
    ∃ answer, answers[n]? = some answer ∧ Judged resource (rowsOf (answers.take n)) item answer
  /-- Without an item that is answered with an error the other answers are the same. -/
  erased : ∀ n e, answers[n]? = some (.error e) →
    scan resource (ofSource (stream.eraseIdx n)) = answers.eraseIdx n
  /-- Without all of these items the rows are the same. -/
  kept_eq : scan resource (ofSource (kept stream answers)) = ofRows (rowsOf answers)

theorem scan_filters (resource : String) (stream : List (Except SourceError (Row α))) :
    Filters resource stream (scan resource (ofSource stream)) where
  pulls_eq n := by
    rw [pulls_eq, scan, take_scanFrom, length_scanFrom, ofSource, ← List.map_take,
      List.length_map]
    rfl
  drop_eq n := by
    rw [scan, drop_scanFrom, lastAfter, Option.or_none, ofSource, ← List.map_drop]
    rfl
  sublist n := by
    rw [scan, take_scanFrom, ofSource, ← List.map_take]
    exact rowsOf_scanFrom_sublist _ _ _
  valid n := by
    rw [scan, take_scanFrom]
    exact (valid_scanFrom _ _ _).1
  judged n item hitem := by
    refine ⟨_, ?_, judged_answer resource _ item⟩
    rw [scan, getElem?_scanFrom, lastAfter, Option.or_none, ofSource, List.getElem?_map, hitem]
    rfl
  erased n e he := by
    rw [ofSource_eraseIdx]
    exact scanFrom_eraseIdx he
  kept_eq := by
    have hkept : ofSource (kept stream (scan resource (ofSource stream))) =
        ofRows (rowsOf (scan resource (ofSource stream))) := ofSource_kept resource none stream
    rw [hkept]
    exact scan_ofRows (valid_scanFrom _ _ _).1

end Telemetry.Feed
