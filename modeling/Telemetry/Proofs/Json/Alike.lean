import Telemetry.Json.Record
import Telemetry.Proofs.Fallible
import Telemetry.Proofs.Json.Text

/-!
# Trees that hold the same

What is read of a text need not be the tree that was written, but only one that holds the same: the
same texts, numbers of the same value, and the same keys in order. A writer and a reader that give
such a tree back restore it, however they spell it. The texts of this library are restored by
`parse?`, which reads some characters as code units.
-/

namespace Telemetry.Json

variable {j : Json} {fields : List (String × Json)} {names : List String} {s : String}

/-- Nobody who asks for texts, numbers, items and fields tells the trees apart. -/
inductive Alike : Json → Json → Prop
  | null : Alike null null
  | bool (b : Bool) : Alike (bool b) (bool b)
  | number {l l' : NumberLiteral} (hfloat : l'.float? = l.float?) (hsigned : l'.signed? = l.signed?)
      (hword : l'.word? = l.word?) : Alike (number l) (number l')
  | string {parts parts' : List StringPart} (h : text? parts' = text? parts) :
      Alike (string parts) (string parts')
  | array {items items' : List Json} (h : List.Forall₂ Alike items items') :
      Alike (array items) (array items')
  | object {fields fields' : List (List StringPart × Json)}
      (hkeys : fields.map (text? ·.1) = fields'.map (text? ·.1))
      (hvalues : List.Forall₂ Alike (fields.map (·.2)) (fields'.map (·.2))) :
      Alike (object fields) (object fields')

/-- What is read of the text that is written of a tree holds the same. -/
def Restores (write : Json → String) (read? : String → Option Json) (j : Json) : Prop :=
  ∃ j', read? (write j) = some j' ∧ j.Alike j'

/-! ## What alike trees hold -/

theorem text?_chars (cs : List Char) : text? (cs.map .char) = some cs := by
  induction cs with
  | nil => rfl
  | cons c cs ih =>
    rw [List.map_cons, text?, ih]
    rfl

theorem Alike.string?_eq (h : (ofString s).Alike j) : j.string? = some s := by
  cases h with
  | string h =>
    show (text? _).map String.ofList = _
    rw [h, text?_chars, Option.map_some, String.ofList_toList]

theorem Alike.name?_eq (h : (ofString s).Alike j) : j.name? = some s := by
  have hstring := h.string?_eq
  cases h with
  | string => exact hstring

theorem Alike.signed?_eq {n : Int} (h : (ofInt n).Alike j) (hmin : minTicks ≤ n)
    (hmax : n ≤ maxTicks) : j.signed? = some n := by
  cases h with
  | number _ hsigned => exact hsigned.trans (NumberLiteral.signed?_ofInt hmin hmax)

theorem Alike.word?_eq {w : UInt64} (h : (ofInt w.toNat).Alike j) : j.word? = some w := by
  cases h with
  | number _ _ hword => exact hword.trans (NumberLiteral.word?_ofInt w)

theorem exists_keyed? {fields' : List (List StringPart × Json)}
    (hkeys : fields.map (some ·.1.toList) = fields'.map (text? ·.1))
    (hvalues : List.Forall₂ Alike (fields.map (·.2)) (fields'.map (·.2))) :
    ∃ found, keyed? fields' = some found ∧
      List.Forall₂ (fun f g => f.1 = g.1 ∧ f.2.Alike g.2) fields found := by
  induction fields generalizing fields' with
  | nil =>
    obtain rfl := List.map_eq_nil_iff.1 hkeys.symm
    exact ⟨[], rfl, .nil⟩
  | cons f fields ih =>
    obtain ⟨⟨key, value⟩, fields', rfl, hkey, hkeys⟩ := List.map_eq_cons_iff.1 hkeys.symm
    obtain ⟨hvalue, hvalues⟩ := List.forall₂_cons.1 hvalues
    obtain ⟨found, hfound, hall⟩ := ih hkeys.symm hvalues
    refine ⟨(f.1, value) :: found, ?_, .cons ⟨rfl, hvalue⟩ hall⟩
    rw [keyed?] at hfound
    have hfirst : text? key = some f.1.toList := hkey
    simp [keyed?, hfirst, hfound, String.ofList_toList]

/-- Behind an object stands an object, with the same behind the same keys in order. -/
theorem Alike.exists_fields (h : (ofFields fields).Alike j) : ∃ fields' found,
    j = .object fields' ∧ keyed? fields' = some found ∧
      List.Forall₂ (fun f g => f.1 = g.1 ∧ f.2.Alike g.2) fields found := by
  cases h with
  | @object _ fields' hkeys hvalues =>
    rw [List.map_map] at hkeys hvalues
    obtain ⟨found, hfound, hall⟩ := exists_keyed? (by simpa [Function.comp_def, text?_chars] using
      hkeys) hvalues
    exact ⟨fields', found, rfl, hfound, hall⟩

/-- An object with known keys, none twice, is read as a record in which the same is found. -/
theorem Alike.exists_record (h : (ofFields fields).Alike j) (hnames : ∀ f ∈ fields, f.1 ∈ names)
    (hnodup : (fields.map (·.1)).Nodup) : ∃ found, record? names j = some found ∧
      ∀ name, Option.Rel Alike (fields.lookup name) (field? found name) := by
  obtain ⟨fields', found, rfl, hkeyed, hfound⟩ := h.exists_fields
  have hkeys : found.map (·.1) = fields.map (·.1) :=
    (map_eq_iff_forall₂.2 (hfound.imp fun _ _ h => h.1)).symm
  have hknown : found.filter (·.1 ∈ names) = found := by
    refine List.filter_eq_self.2 fun g hg => decide_eq_true ?_
    obtain ⟨f, hf, heq, -⟩ := exists_of_forall₂_mem hfound hg
    exact heq ▸ hnames f hf
  refine ⟨found, ?_, rel_lookup hfound⟩
  show (Json.keyed? fields').bind _ = _
  rw [hkeyed, Option.bind_some, hknown, if_pos (hkeys ▸ hnodup)]
  rfl

/-! ## Texts that are restored -/

theorem text?_unit (n : Nat) (parts : List StringPart) :
    text? (.unit n :: parts) =
      if n < 0xD800 || 0xDFFF < n then (text? parts).map (Char.ofNat n :: ·)
      else if n < 0xDC00 then
        match parts with
        | .unit m :: rest =>
          if 0xDC00 ≤ m && m ≤ 0xDFFF then
            (text? rest).map
              (Char.ofNat (0x10000 + (n - 0xD800) * 0x400 + (m - 0xDC00)) :: ·)
          else none
        | _ => none
      else none := by
  cases parts with
  | nil => rfl
  | cons p parts => cases p <;> rfl

/-- What is read as a code unit is never half of a pair. -/
theorem text?_reread (parts : List StringPart) :
    text? (parts.map StringPart.reread) = text? parts := by
  fun_induction text? parts with
  | case1 => rfl
  | case2 c rest ih =>
    rw [List.map_cons]
    rcases reread_char c with hc | ⟨hc, hlt⟩
    · rw [hc, text?, ih]
    · rw [hc, text?_unit, if_pos (by simp; omega), ih, Char.ofNat_toNat]
  | case3 n rest hn ih => rw [List.map_cons, StringPart.reread, text?_unit, if_pos hn, ih]
  | case4 n hn hlt m rest hm code ih =>
    rw [List.map_cons, List.map_cons, StringPart.reread, StringPart.reread, text?_unit,
      if_neg hn, if_pos hlt]
    exact (if_pos hm).trans (congrArg (Option.map _) ih)
  | case5 n hn hlt m rest hm =>
    rw [List.map_cons, List.map_cons, StringPart.reread, StringPart.reread, text?_unit,
      if_neg hn, if_pos hlt]
    exact if_neg hm
  | case6 n rest hn hlt hrest =>
    rw [List.map_cons, StringPart.reread, text?_unit, if_neg hn, if_pos hlt]
    cases rest with
    | nil => rfl
    | cons p rest =>
      cases p with
      | unit m => exact absurd rfl (hrest m rest)
      | char c =>
        rcases reread_char c with hc | ⟨hc, hlt⟩
        · rw [List.map_cons, hc]
        · rw [List.map_cons, hc]
          exact if_neg (by simp; omega)
  | case7 n rest hn hlt => rw [List.map_cons, StringPart.reread, text?_unit, if_neg hn, if_neg hlt]

theorem WellFormed.alike_reread (h : j.WellFormed) : j.Alike j.reread := by
  induction h with
  | null => exact .null
  | bool b => exact .bool b
  | number => exact .number rfl rfl rfl
  | string => exact .string (text?_reread _)
  | @array items _ ih =>
    refine .array ?_
    rw [rereadItems_eq_map, List.forall₂_map_right_iff]
    exact List.forall₂_same.2 ih
  | @object fields _ _ ih =>
    refine .object ?_ ?_ <;> rw [rereadFields_eq_map, List.map_map]
    · exact List.map_congr_left fun f _ => (text?_reread f.1).symm
    · rw [List.forall₂_map_left_iff, List.forall₂_map_right_iff]
      exact List.forall₂_same.2 ih

theorem restores_text (h : j.WellFormed) : Restores text (fun s => parse? s.toList) j := by
  refine ⟨j.reread, ?_, h.alike_reread⟩
  show parse? (text j).toList = _
  rw [text, String.toList_ofList, h.parse?_chars]

end Telemetry.Json
