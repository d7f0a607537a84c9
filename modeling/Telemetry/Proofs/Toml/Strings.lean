import Telemetry.Proofs.Text
import Telemetry.Toml.Reader
import Telemetry.Toml.Writer

/-!
# Strings of documents read back

Whatever quotes a string is written in, it is read back as it was, unless more quotes follow behind
it. Between double quotes every character is spelled by itself or by an escape. Over several lines
quotes stand as they are as long as no more than two of them are in a row, so that three end the
string; at its very end up to five quotes may be in a row, of which the last three end it.
-/

namespace Telemetry.Toml

variable {q c : Char} {w s cs tail : List Char}

/-! ## Characters between double quotes -/

/-- A text between double quotes that stands for one character. -/
inductive Spelled (c : Char) : List Char → Prop
  | plain (hplain : isPlain c = true) (hquote : c ≠ '"') (hslash : c ≠ '\\') : Spelled c [c]
  | escape {code : List Char} (hcode : ∀ s, readEscape (code ++ s) = some (c, s))
      (hfold : ∀ s, readNewline (skipWhite (code ++ s)) = none) : Spelled c ('\\' :: code)

theorem hexDigit?_hexUpper : ∀ n < 16, hexDigit? (hexUpper n) = some n := by
  decide

theorem readEscape_hexUpper (h : c.toNat < 0x80) (s : List Char) :
    readEscape (['u', '0', '0', hexUpper (c.toNat / 16), hexUpper (c.toNat % 16)] ++ s) =
      some (c, s) := by
  have hzero : hexDigit? '0' = some 0 := rfl
  have hsum : 16 * (c.toNat / 16) + c.toNat % 16 = c.toNat := Nat.div_add_mod _ _
  have hpoint : codePoint? ['0', '0', hexUpper (c.toNat / 16), hexUpper (c.toNat % 16)] =
      some c := by
    simp only [codePoint?, hexValue?, List.foldlM_cons, List.foldlM_nil, hzero,
      hexDigit?_hexUpper (c.toNat / 16) (by omega),
      hexDigit?_hexUpper (c.toNat % 16) (by omega), Option.map_some, Option.bind_eq_bind,
      Option.bind_some, Nat.mul_zero, Nat.zero_add, hsum, Option.pure_def]
    rw [if_pos (by simp; omega), Char.ofNat_toNat]
  simp only [List.cons_append, List.nil_append, readEscape]
  rw [if_neg (by simp)]
  exact congrArg (Option.map (·, s)) hpoint

/-- A character that does not stand as it is over several lines is spelled. -/
theorem escapeFrom_cons {lines : Bool} {run : Nat}
    (h : lines = true → c ≠ '\n' ∧ (c = '"' → 2 ≤ run)) (cs : List Char) :
    ∃ w, escapeFrom lines run (c :: cs) = w ++ escapeFrom lines 0 cs ∧ Spelled c w := by
  rw [escapeFrom]
  split
  next hquote =>
    have hescaped : ¬ (lines && decide (run < 2)) = true := by
      simp only [Bool.and_eq_true, decide_eq_true_eq]
      exact fun hraw => absurd ((h hraw.1).2 hquote) (Nat.not_le_of_lt hraw.2)
    rw [if_neg hescaped]
    subst hquote
    exact ⟨['\\', '"'], rfl, .escape (fun _ => rfl) fun _ => rfl⟩
  next hquote =>
    rw [if_neg (by simpa using fun heq hlines => (h hlines).1 heq)]
    refine ⟨_, rfl, ?_⟩
    -- the five other characters that have escapes of their own
    iterate 5
      split
      next heq =>
        subst heq
        exact .escape (fun _ => rfl) fun _ => rfl
    split
    next heq =>
      subst heq
      exact .escape (fun _ => rfl) fun _ => rfl
    split
    next hcontrol =>
      have hc : c.toNat < 0x80 := by
        simp only [Bool.or_eq_true, decide_eq_true_eq] at hcontrol
        omega
      exact .escape (readEscape_hexUpper hc) fun _ => rfl
    next hslash hcontrol =>
      simp only [Bool.or_eq_true, decide_eq_true_eq, not_or] at hcontrol
      exact .plain (by simp [isPlain]; omega) hquote hslash

/-- On one line every character is spelled. -/
theorem escapeFrom_line (c : Char) (cs : List Char) :
    ∃ w, escapeFrom false 0 (c :: cs) = w ++ escapeFrom false 0 cs ∧ Spelled c w := by
  have hline : false = true → c ≠ '\n' ∧ (c = '"' → 2 ≤ 0) := nofun
  exact escapeFrom_cons hline cs

theorem readNewline_cons (hline : c ≠ '\n') (hreturn : c ≠ '\r') (s : List Char) :
    readNewline (c :: s) = none := by
  unfold readNewline
  split
  next heq => exact absurd (List.cons.inj heq).1 hline
  next heq => exact absurd (List.cons.inj heq).1 hreturn
  next => rfl

theorem readNewline_of_isPlain (h : isPlain c = true) (s : List Char) :
    readNewline (c :: s) = none := by
  refine readNewline_cons ?_ ?_ s
  all_goals
    rintro rfl
    exact absurd h (by decide)

theorem readBasic_spelled (h : Spelled c w) (fuel : Nat) (s : List Char) :
    readBasic (fuel + 1) (w ++ s) = prepend [c] (readBasic fuel s) := by
  cases h with
  | plain hplain hquote hslash =>
    rw [List.cons_append, List.nil_append, readBasic, if_pos hplain]
    · exact hquote
    · exact hslash
  | escape hcode =>
    rw [List.cons_append, readBasic, hcode, Option.bind_some]

theorem readBasicLines_spelled (h : Spelled c w) (fuel : Nat) (s : List Char) :
    readBasicLines (fuel + 1) (w ++ s) = prepend [c] (readBasicLines fuel s) := by
  cases h with
  | plain hplain hquote hslash =>
    rw [List.cons_append, List.nil_append, readBasicLines, readNewline_of_isPlain hplain]
    dsimp only
    rw [if_pos hplain]
    · exact hquote
    · exact hslash
  | escape hcode hfold =>
    rw [List.cons_append, readBasicLines, readNewline_of_isPlain rfl]
    dsimp only
    rw [hfold, hcode, Option.bind_some]

theorem length_le_escapeFrom (lines : Bool) (run : Nat) (cs : List Char) :
    cs.length ≤ (escapeFrom lines run cs).length := by
  induction cs generalizing run with
  | nil => exact Nat.zero_le _
  | cons c cs ih =>
    rw [escapeFrom]
    have := ih 0
    have := ih (run + 1)
    split
    · split <;> simp only [List.length_cons] <;> omega
    split
    · simp only [List.length_cons]
      omega
    · repeat' split
      all_goals simp only [List.length_append, List.length_cons]; omega

theorem readBasic_escapeFrom {fuel : Nat} (hfuel : cs.length < fuel) (tail : List Char) :
    readBasic fuel (escapeFrom false 0 cs ++ '"' :: tail) = some (cs, tail) := by
  induction cs generalizing fuel with
  | nil =>
    obtain ⟨n, rfl⟩ : ∃ n, fuel = n + 1 := ⟨fuel - 1, by omega⟩
    rfl
  | cons c cs ih =>
    obtain ⟨n, rfl⟩ : ∃ n, fuel = n + 1 := ⟨fuel - 1, by omega⟩
    obtain ⟨w, hw, hspelled⟩ := escapeFrom_line c cs
    rw [hw, List.append_assoc, readBasic_spelled hspelled, ih (Nat.lt_of_succ_lt_succ hfuel)]
    rfl

/-! ## Runs of quotes -/

/-- Up to two quotes before the three that end a string belong to it. -/
theorem closeQuotes_replicate {k : Nat} (hk : k ≤ 2) (htail : ∀ c ∈ tail.head?, c ≠ q) :
    closeQuotes q (List.replicate k q ++ q :: q :: q :: tail) =
      some (List.replicate k q, tail) := by
  have htext : List.replicate k q ++ q :: q :: q :: tail = List.replicate (k + 3) q ++ tail := by
    simp [List.replicate_succ', List.append_assoc]
  have hrun := (takeWhile_append_of_head (p := (· = q)) (w := List.replicate (k + 3) q)
    (by simp) (by simpa using htail)).1
  have hkept : min (k + 3 - 3) 2 = k := by omega
  simp only [closeQuotes, htext, hrun, List.length_replicate]
  rw [if_neg (by omega), hkept, List.drop_left' List.length_replicate]

/-- Up to two quotes before something else do not end a string. -/
theorem closeQuotes_of_ne (hrun : (s.takeWhile (· = q)).length ≤ 2) (hne : ∃ c ∈ s, c ≠ q)
    (t : List Char) : closeQuotes q (s ++ t) = none := by
  have hshort : (s.takeWhile (· = q)).length ≠ s.length := by
    obtain ⟨c, hc, hcq⟩ := hne
    intro hlen
    have hall := List.takeWhile_eq_self_iff.1
      ((List.takeWhile_prefix (· = q)).eq_of_length hlen) c hc
    exact hcq (by simpa using hall)
  rw [closeQuotes, List.takeWhile_append, if_neg hshort]
  exact if_pos (by omega)

/-- Where a string begins with at most two quotes, they are read with its end if there is nothing
else to it, and one by one if there is. -/
theorem closeQuotes_append (hrun : (s.takeWhile (· = q)).length ≤ 2)
    (htail : ∀ c ∈ tail.head?, c ≠ q) :
    closeQuotes q (s ++ q :: q :: q :: tail) =
      if s.all (· = q) then some (s, tail) else none := by
  split
  next hall =>
    rw [List.all_eq_true] at hall
    rw [List.takeWhile_eq_self_iff.2 hall] at hrun
    rw [List.eq_replicate_of_mem fun c hc => of_decide_eq_true (hall c hc)]
    exact closeQuotes_replicate hrun htail
  next hall =>
    exact closeQuotes_of_ne hrun (by simpa using hall) _

/-! ## Double quotes over several lines -/

theorem Spelled.exists_cons (h : Spelled c w) : ∃ d t, w = d :: t ∧ d ≠ '"' := by
  cases h with
  | plain _ hquote => exact ⟨c, [], rfl, hquote⟩
  | escape => exact ⟨'\\', _, rfl, by decide⟩

/-- Over several lines a quote or a line end may stand as it is. -/
theorem escapeFrom_lines (run : Nat) (c : Char) (cs : List Char) :
    (c = '"' ∧ run < 2 ∧
        escapeFrom true run (c :: cs) = '"' :: escapeFrom true (run + 1) cs) ∨
      (c = '\n' ∧ escapeFrom true run (c :: cs) = '\n' :: escapeFrom true 0 cs) ∨
      ∃ w, escapeFrom true run (c :: cs) = w ++ escapeFrom true 0 cs ∧ Spelled c w := by
  by_cases hraw : c = '"' ∧ run < 2
  · exact .inl ⟨hraw.1, hraw.2, by simp [escapeFrom, hraw]⟩
  by_cases hline : c = '\n'
  · exact .inr (.inl ⟨hline, by simp [escapeFrom, hline]⟩)
  · refine .inr (.inr (escapeFrom_cons (fun _ => ⟨hline, fun hquote => ?_⟩) cs))
    exact Nat.le_of_not_lt fun hlt => hraw ⟨hquote, hlt⟩

theorem takeWhile_escapeFrom {run : Nat} (hrun : run ≤ 2) (cs : List Char) :
    run + ((escapeFrom true run cs).takeWhile (· = '"')).length ≤ 2 := by
  induction cs generalizing run with
  | nil => simpa [escapeFrom] using hrun
  | cons c cs ih =>
    rcases escapeFrom_lines run c cs with ⟨-, hlt, heq⟩ | ⟨-, heq⟩ | ⟨w, heq, hspelled⟩
    · have hnext : run + 1 ≤ 2 := hlt
      have hrest := ih hnext
      rw [heq, List.takeWhile_cons_of_pos (by simp), List.length_cons]
      omega
    · rw [heq, List.takeWhile_cons_of_neg (by simp)]
      exact hrun
    · obtain ⟨d, t, rfl, hd⟩ := hspelled.exists_cons
      rw [heq, List.cons_append, List.takeWhile_cons_of_neg (by simpa using hd)]
      exact hrun

/-- Quotes alone stand for themselves. -/
theorem escapeFrom_eq_self {run : Nat} (h : ∀ c ∈ escapeFrom true run cs, c = '"') :
    escapeFrom true run cs = cs := by
  induction cs generalizing run with
  | nil => rfl
  | cons c cs ih =>
    rcases escapeFrom_lines run c cs with ⟨hc, -, heq⟩ | ⟨-, heq⟩ | ⟨w, heq, hspelled⟩
    · rw [heq] at h ⊢
      rw [ih fun d hd => h d (List.mem_cons_of_mem _ hd), hc]
    · rw [heq] at h
      exact absurd (h '\n' List.mem_cons_self) (by decide)
    · obtain ⟨d, t, rfl, hd⟩ := hspelled.exists_cons
      rw [heq] at h
      exact absurd (h d List.mem_cons_self) hd

theorem readBasicLines_quote (fuel : Nat) (s : List Char) :
    readBasicLines (fuel + 1) ('"' :: s) =
      (closeQuotes '"' ('"' :: s)).or (prepend ['"'] (readBasicLines fuel s)) := by
  rw [readBasicLines, readNewline_of_isPlain rfl]
  dsimp only
  cases closeQuotes '"' ('"' :: s) <;> rfl

theorem readBasicLines_escapeFrom {run fuel : Nat} (hrun : run ≤ 2) (hfuel : cs.length < fuel)
    (htail : ∀ c ∈ tail.head?, c ≠ '"') :
    readBasicLines fuel (escapeFrom true run cs ++ '"' :: '"' :: '"' :: tail) =
      some (cs, tail) := by
  induction cs generalizing run fuel with
  | nil =>
    obtain ⟨n, rfl⟩ : ∃ n, fuel = n + 1 := ⟨fuel - 1, by omega⟩
    have hclose := closeQuotes_replicate (k := 0) (by omega) htail
    rw [List.replicate_zero, List.nil_append] at hclose
    rw [escapeFrom, List.nil_append, readBasicLines_quote, hclose, Option.some_or]
  | cons c cs ih =>
    obtain ⟨n, rfl⟩ : ∃ n, fuel = n + 1 := ⟨fuel - 1, by omega⟩
    have hn : cs.length < n := Nat.lt_of_succ_lt_succ hfuel
    have hclose := closeQuotes_append
      ((Nat.le_add_left _ _).trans (takeWhile_escapeFrom hrun (c :: cs))) htail
    rcases escapeFrom_lines run c cs with ⟨rfl, hlt, heq⟩ | ⟨rfl, heq⟩ | ⟨w, heq, hspelled⟩
    · by_cases hall : (escapeFrom true run ('"' :: cs)).all (· = '"') = true
      · have hself := escapeFrom_eq_self (by simpa using hall)
        rw [if_pos hall, hself, List.cons_append] at hclose
        rw [hself, List.cons_append, readBasicLines_quote, hclose, Option.some_or]
      · rw [if_neg hall, heq, List.cons_append] at hclose
        rw [heq, List.cons_append, readBasicLines_quote, hclose, Option.none_or, ih hlt hn]
        rfl
    · rw [heq, List.cons_append]
      show prepend ['\n'] (readBasicLines n (escapeFrom true 0 cs ++ _)) = _
      rw [ih (Nat.zero_le 2) hn]
      rfl
    · rw [heq, List.append_assoc, readBasicLines_spelled hspelled, ih (Nat.zero_le 2) hn]
      rfl

/-! ## Single quotes -/

/-- What `longestRun` remembers: the length of the run that goes on, and of the longest one. -/
def countRun (q : Char) (counts : Nat × Nat) (c : Char) : Nat × Nat :=
  if c = q then (counts.1 + 1, max counts.2 (counts.1 + 1)) else (0, counts.2)

theorem longestRun_eq (q : Char) (cs : List Char) :
    longestRun q cs = (cs.foldl (countRun q) (0, 0)).2 :=
  rfl

theorem le_foldl_countRun {run longest : Nat} (h : run ≤ longest) (cs : List Char) :
    longest ≤ (cs.foldl (countRun q) (run, longest)).2 ∧
      run + (cs.takeWhile (· = q)).length ≤ (cs.foldl (countRun q) (run, longest)).2 := by
  induction cs generalizing run longest with
  | nil => exact ⟨le_rfl, h⟩
  | cons c cs ih =>
    by_cases hc : c = q
    · obtain ⟨hlongest, hrun⟩ := ih (Nat.le_max_right longest (run + 1))
      rw [List.foldl_cons, countRun, if_pos hc, List.takeWhile_cons_of_pos (by simpa using hc),
        List.length_cons]
      dsimp only
      omega
    · obtain ⟨hlongest, -⟩ := ih (Nat.zero_le longest)
      rw [List.foldl_cons, countRun, if_neg hc, List.takeWhile_cons_of_neg (by simpa using hc)]
      exact ⟨hlongest, h.trans hlongest⟩

theorem not_mem_of_longestRun (h : longestRun q cs = 0) : q ∉ cs := by
  intro hq
  obtain ⟨before, behind, rfl⟩ := List.append_of_mem hq
  rw [longestRun_eq, List.foldl_append, List.foldl_cons] at h
  generalize before.foldl (countRun q) (0, 0) = counts at h
  have hle := (le_foldl_countRun (q := q) (Nat.le_max_right counts.2 (counts.1 + 1)) behind).1
  rw [countRun, if_pos rfl] at h
  omega

theorem isPlain_or_of_not_isControl (h : isControl c = false) : isPlain c = true ∨ c = '\n' := by
  simp only [isControl, Bool.or_eq_false_iff, Bool.and_eq_false_iff, decide_eq_false_iff_not] at h
  by_cases htab : c = '\t'
  · exact .inl (by simp [isPlain, htab])
  by_cases hline : c = '\n'
  · exact .inr hline
  · refine .inl ?_
    simp [isPlain]
    simp_all

theorem readLiteral_append (hplain : ∀ c ∈ cs, isPlain c = true) (hquote : '\'' ∉ cs)
    (tail : List Char) : readLiteral (cs ++ '\'' :: tail) = some (cs, tail) := by
  have hrun := (takeWhile_append_of_head (p := fun c => c ≠ '\'' && isPlain c) (w := cs)
    (s := '\'' :: tail) (fun c hc => by
      simpa using ⟨fun heq : c = '\'' => hquote (heq ▸ hc), hplain c hc⟩) (by simp)).1
  simp only [readLiteral, hrun, List.drop_left]

theorem readLiteralLines_quote (fuel : Nat) (s : List Char) :
    readLiteralLines (fuel + 1) ('\'' :: s) =
      (closeQuotes '\'' ('\'' :: s)).or (prepend ['\''] (readLiteralLines fuel s)) := by
  rw [readLiteralLines, readNewline_of_isPlain rfl]
  dsimp only
  cases closeQuotes '\'' ('\'' :: s) <;> rfl

theorem readLiteralLines_plain {fuel : Nat} (hplain : isPlain c = true) (hquote : c ≠ '\'')
    (s : List Char) :
    readLiteralLines (fuel + 1) (c :: s) = prepend [c] (readLiteralLines fuel s) := by
  rw [readLiteralLines, readNewline_of_isPlain hplain]
  dsimp only
  rw [if_pos hplain]
  exact hquote

theorem readLiteralLines_append {run longest fuel : Nat} (hrun : run ≤ longest)
    (hlongest : (cs.foldl (countRun '\'') (run, longest)).2 ≤ 2)
    (hchars : ∀ c ∈ cs, isPlain c = true ∨ c = '\n') (hfuel : cs.length < fuel)
    (htail : ∀ c ∈ tail.head?, c ≠ '\'') :
    readLiteralLines fuel (cs ++ '\'' :: '\'' :: '\'' :: tail) = some (cs, tail) := by
  induction cs generalizing run longest fuel with
  | nil =>
    obtain ⟨n, rfl⟩ : ∃ n, fuel = n + 1 := ⟨fuel - 1, by omega⟩
    have hclose := closeQuotes_replicate (k := 0) (by omega) htail
    rw [List.replicate_zero, List.nil_append] at hclose
    rw [List.nil_append, readLiteralLines_quote, hclose, Option.some_or]
  | cons c cs ih =>
    obtain ⟨n, rfl⟩ : ∃ n, fuel = n + 1 := ⟨fuel - 1, by omega⟩
    have hn : cs.length < n := Nat.lt_of_succ_lt_succ hfuel
    have hrest (d : Char) (hd : d ∈ cs) := hchars d (List.mem_cons_of_mem c hd)
    have hclose := closeQuotes_append ((Nat.le_add_left _ run).trans
      ((le_foldl_countRun hrun (c :: cs)).2.trans hlongest)) htail
    rw [List.foldl_cons, countRun] at hlongest
    by_cases hc : c = '\''
    · subst hc
      rw [if_pos rfl] at hlongest
      rw [List.cons_append] at hclose
      rw [List.cons_append, readLiteralLines_quote, hclose]
      split
      · rfl
      · rw [Option.none_or, ih (Nat.le_max_right _ _) hlongest hrest hn]
        rfl
    · rw [if_neg hc] at hlongest
      have hread := ih (Nat.zero_le longest) hlongest hrest hn
      rcases hchars c List.mem_cons_self with hplain | rfl
      · rw [List.cons_append, readLiteralLines_plain hplain hc, hread]
        rfl
      · rw [List.cons_append]
        show prepend ['\n'] (readLiteralLines n (cs ++ _)) = _
        rw [hread]
        rfl

/-! ## Strings -/

section Quotes

variable {t : StringTraits} {start : List Char}

theorem of_choose_literal (h : Quotes.choose t = .literal) :
    t.control = false ∧ t.singles = 0 ∧ t.newline = false := by
  unfold Quotes.choose at h
  split at h
  · cases h
  split at h
  next hliteral => simpa [and_assoc] using hliteral
  all_goals repeat' split at h
  all_goals cases h

theorem of_choose_literalLines (h : Quotes.choose t = .literalLines) :
    t.control = false ∧ t.singles ≤ 2 := by
  unfold Quotes.choose at h
  split at h
  · cases h
  split at h
  · cases h
  split at h
  · cases h
  split at h
  next hliteral => simpa using hliteral
  all_goals split at h <;> cases h

theorem isPlain_or_of_control (h : (StringTraits.of cs).control = false) :
    ∀ c ∈ cs, isPlain c = true ∨ c = '\n' := by
  intro c hc
  have hall : ∀ c ∈ cs, isControl c = false := by simpa [StringTraits.of] using h
  exact isPlain_or_of_not_isControl (hall c hc)

theorem forall_head?_escapeFrom (h : '\n' ∉ cs) (s : List Char) :
    ∀ c ∈ (escapeFrom true 0 cs ++ '"' :: s).head?, isPlain c = true := by
  intro d hd
  cases cs with
  | nil =>
    obtain rfl : '"' = d := by simpa [escapeFrom] using hd
    rfl
  | cons c cs =>
    rcases escapeFrom_lines 0 c cs with ⟨-, -, heq⟩ | ⟨rfl, -⟩ | ⟨w, heq, hspelled⟩
    · obtain rfl : '"' = d := by simpa [heq] using hd
      rfl
    · exact absurd List.mem_cons_self h
    · cases hspelled with
      | plain hplain =>
        obtain rfl : c = d := by simpa [heq] using hd
        exact hplain
      | escape =>
        obtain rfl : '\\' = d := by simpa [heq] using hd
        rfl

/-- A string over several lines begins with a line end if there is another in it. -/
theorem dropFirstNewline_start (hstart : start = if '\n' ∈ cs then ['\n'] else [])
    (h : '\n' ∉ cs → ∀ c ∈ s.head?, isPlain c = true) : dropFirstNewline (start ++ s) = s := by
  by_cases hline : '\n' ∈ cs
  · rw [hstart, if_pos hline]
    rfl
  · rw [hstart, if_neg hline, List.nil_append]
    cases s with
    | nil => rfl
    | cons c s =>
      rw [dropFirstNewline, readNewline_of_isPlain (h hline c rfl), Option.getD_none]

theorem readString_basic (cs : List Char) (htail : ∀ c ∈ tail.head?, c ≠ '"') :
    readString ('"' :: (escapeFrom false 0 cs ++ '"' :: tail)) = some (cs, tail) := by
  have hfuel : cs.length < (escapeFrom false 0 cs ++ '"' :: tail).length + 1 := by
    have := length_le_escapeFrom false 0 cs
    rw [List.length_append]
    omega
  rw [readString]
  · exact readBasic_escapeFrom hfuel tail
  · intro rest heq
    cases cs with
    | nil =>
      simp only [escapeFrom, List.nil_append, List.cons.injEq, true_and] at heq
      exact htail '"' (by rw [heq]; rfl) rfl
    | cons c cs =>
      obtain ⟨w, hw, hspelled⟩ := escapeFrom_line c cs
      obtain ⟨d, t, rfl, hd⟩ := hspelled.exists_cons
      rw [hw] at heq
      exact hd (List.cons.inj heq).1

theorem readString_literal (hplain : ∀ c ∈ cs, isPlain c = true) (hquote : '\'' ∉ cs)
    (htail : ∀ c ∈ tail.head?, c ≠ '\'') :
    readString ('\'' :: (cs ++ '\'' :: tail)) = some (cs, tail) := by
  rw [readString]
  · exact readLiteral_append hplain hquote tail
  · intro rest heq
    cases cs with
    | nil =>
      simp only [List.nil_append, List.cons.injEq, true_and] at heq
      exact htail '\'' (by rw [heq]; rfl) rfl
    | cons c cs => exact hquote ((List.cons.inj heq).1 ▸ List.mem_cons_self)

theorem readString_basicLines (hstart : start = if '\n' ∈ cs then ['\n'] else [])
    (htail : ∀ c ∈ tail.head?, c ≠ '"') :
    readString ('"' :: '"' :: '"' ::
      (start ++ (escapeFrom true 0 cs ++ '"' :: '"' :: '"' :: tail))) = some (cs, tail) := by
  rw [readString, dropFirstNewline_start hstart fun hline => forall_head?_escapeFrom hline _]
  refine readBasicLines_escapeFrom (Nat.zero_le 2) ?_ htail
  have := length_le_escapeFrom true 0 cs
  simp only [List.length_append]
  omega

theorem readString_literalLines (hstart : start = if '\n' ∈ cs then ['\n'] else [])
    (hchars : ∀ c ∈ cs, isPlain c = true ∨ c = '\n') (hrun : longestRun '\'' cs ≤ 2)
    (htail : ∀ c ∈ tail.head?, c ≠ '\'') :
    readString ('\'' :: '\'' :: '\'' ::
      (start ++ (cs ++ '\'' :: '\'' :: '\'' :: tail))) = some (cs, tail) := by
  have hhead : '\n' ∉ cs →
      ∀ c ∈ (cs ++ '\'' :: '\'' :: '\'' :: tail).head?, isPlain c = true := by
    intro hline c hc
    cases cs with
    | nil =>
      obtain rfl : '\'' = c := by simpa using hc
      rfl
    | cons d cs =>
      obtain rfl : d = c := by simpa using hc
      exact (hchars d List.mem_cons_self).resolve_right (by rintro rfl; simp at hline)
  rw [readString, dropFirstNewline_start hstart hhead]
  refine readLiteralLines_append le_rfl hrun hchars ?_ htail
  simp only [List.length_append]
  omega

/-- A string is read back as it was, unless quotes follow it. -/
theorem readString_quote (s : String) (htail : ∀ c ∈ tail.head?, c ≠ '"' ∧ c ≠ '\'') :
    readString ((quote s).toList ++ tail) = some (s.toList, tail) := by
  have hdouble (c : Char) (hc : c ∈ tail.head?) : c ≠ '"' := (htail c hc).1
  have hsingle (c : Char) (hc : c ∈ tail.head?) : c ≠ '\'' := (htail c hc).2
  have hstart : (if (StringTraits.of s.toList).newline then "\n" else "").toList =
      if '\n' ∈ s.toList then ['\n'] else [] := by
    simp only [StringTraits.of, List.contains_iff_mem]
    split <;> rfl
  cases hkind : Quotes.choose (StringTraits.of s.toList) with
  | basic =>
    have htext : (quote s).toList ++ tail =
        '"' :: (escapeFrom false 0 s.toList ++ '"' :: tail) := by
      simp [quote, hkind]
    rw [htext, readString_basic _ hdouble]
  | literal =>
    obtain ⟨hcontrol, hsingles, hline⟩ := of_choose_literal hkind
    have htext : (quote s).toList ++ tail = '\'' :: (s.toList ++ '\'' :: tail) := by
      simp [quote, hkind]
    have hplain (c : Char) (hc : c ∈ s.toList) : isPlain c = true := by
      refine (isPlain_or_of_control hcontrol c hc).resolve_right ?_
      rintro rfl
      simp [StringTraits.of, hc] at hline
    rw [htext, readString_literal hplain (not_mem_of_longestRun hsingles) hsingle]
  | basicLines =>
    have htext : (quote s).toList ++ tail = '"' :: '"' :: '"' ::
        ((if (StringTraits.of s.toList).newline then "\n" else "").toList ++
          (escapeFrom true 0 s.toList ++ '"' :: '"' :: '"' :: tail)) := by
      simp [quote, hkind]
    rw [htext, readString_basicLines hstart hdouble]
  | literalLines =>
    obtain ⟨hcontrol, hsingles⟩ := of_choose_literalLines hkind
    have htext : (quote s).toList ++ tail = '\'' :: '\'' :: '\'' ::
        ((if (StringTraits.of s.toList).newline then "\n" else "").toList ++
          (s.toList ++ '\'' :: '\'' :: '\'' :: tail)) := by
      simp [quote, hkind]
    rw [htext, readString_literalLines hstart (isPlain_or_of_control hcontrol) hsingles hsingle]

end Quotes

end Telemetry.Toml
