import Mathlib.Data.List.DropRight
import Mathlib.Data.List.Forall2
import TypeFlow.Ty

/-!
Reading a written type.

What stands before a bar and what stands after it are read on their own, and the results are put
together: their union, or the first error. So a text is read part by part, and a part is read up
to blanks around it and ASCII case. The text of a type is made of such parts, and is read back in
whatever company, spacing and case it comes.
-/

namespace TypeFlow

/-! ### Blanks and case -/

namespace Text

/-- All blanks at the ends of `s` are taken off, and nothing else is. -/
structure Trimmed (s body : List Char) : Prop where
  exists_blanks : ∃ before after, s = before ++ body ++ after ∧
    (∀ c ∈ before, isBlank c = true) ∧ ∀ c ∈ after, isBlank c = true
  head_not_blank : ∀ c ∈ body.head?, isBlank c = false
  last_not_blank : ∀ c ∈ body.getLast?, isBlank c = false

lemma trim_eq (s : List Char) : trim s = (s.dropWhile isBlank).rdropWhile isBlank := rfl

lemma trimmed_trim (s : List Char) : Trimmed s (trim s) where
  exists_blanks := by
    refine ⟨s.takeWhile isBlank, (s.dropWhile isBlank).rtakeWhile isBlank, ?_, ?_, ?_⟩
    · rw [trim_eq, List.append_assoc, List.rdropWhile_append_rtakeWhile,
        List.takeWhile_append_dropWhile]
    · exact fun c hc => List.mem_takeWhile_imp hc
    · exact fun c hc => List.mem_rtakeWhile_imp hc
  head_not_blank c hc := by
    -- what is left begins where the text without its first blanks does
    have hne : trim s ≠ [] := by
      rintro hnil
      simp [hnil] at hc
    have hhead : c ∈ (s.dropWhile isBlank).head? := by
      obtain ⟨after, hafter⟩ := List.rdropWhile_prefix isBlank (s.dropWhile isBlank)
      rw [← trim_eq] at hafter
      rwa [← hafter, List.head?_append_of_ne_nil _ hne]
    have hnot := List.head?_dropWhile_not isBlank s
    rw [hhead] at hnot
    simpa using hnot
  last_not_blank c hc := by
    have hnot := List.head?_dropWhile_not isBlank (s.dropWhile isBlank).reverse
    rw [trim, List.getLast?_reverse] at hc
    rw [hc] at hnot
    simpa using hnot

/-- Blanks around a text do not matter to what is left of it. -/
lemma trim_append {before after : List Char} (hbefore : ∀ c ∈ before, isBlank c = true)
    (hafter : ∀ c ∈ after, isBlank c = true) (s : List Char) :
    trim (before ++ s ++ after) = trim s := by
  have hreverse : ∀ c ∈ after.reverse, isBlank c = true := by simpa using hafter
  have hnil : after.dropWhile isBlank = [] := List.dropWhile_eq_nil_iff.mpr hafter
  rw [trim, trim, List.append_assoc, List.dropWhile_append_of_pos hbefore, List.dropWhile_append]
  split
  · next hs =>
    rw [hnil, List.isEmpty_iff.mp hs]
  · rw [List.reverse_append, List.dropWhile_append_of_pos hreverse]

lemma Trimmed.eq_trim {s body : List Char} (h : Trimmed s body) : body = trim s := by
  obtain ⟨⟨before, after, rfl, hbefore, hafter⟩, hhead, hlast⟩ := h
  have hfront : body.dropWhile isBlank = body := by
    cases body with
    | nil => rfl
    | cons c cs => exact List.dropWhile_cons_of_neg (by simp [hhead c rfl])
  have hback : body.rdropWhile isBlank = body := by
    refine List.rdropWhile_eq_self_iff.mpr fun hne => ?_
    simp [hlast _ (List.getLast?_eq_some_getLast hne)]
  rw [trim_append hbefore hafter, trim_eq, hfront, hback]

lemma isBlank_of_letter {c : Char} (hlo : 65 ≤ c.toNat) (hhi : c.toNat ≤ 122) :
    isBlank c = false := by
  simp only [isBlank, blankRanges, List.any_cons, List.any_nil, Bool.or_false,
    Bool.or_eq_false_iff, Bool.and_eq_false_imp, decide_eq_true_eq, decide_eq_false_iff_not]
  omega

/-- Only the capital letters of ASCII change, and they are blank neither before nor after. -/
lemma isBlank_toLower (c : Char) : isBlank c.toLower = isBlank c := by
  unfold Char.toLower
  split
  · next h =>
    have hlo : 65 ≤ c.toNat := h.1
    have hhi : c.toNat ≤ 90 := h.2
    have hlower : (c.val + ('a'.val - 'A'.val)).toNat = c.toNat + 32 := by
      rw [UInt32.toNat_add]
      change (c.toNat + 32) % 4294967296 = _
      omega
    rw [isBlank_of_letter hlo (by omega)]
    apply isBlank_of_letter
    · change 65 ≤ (c.val + ('a'.val - 'A'.val)).toNat
      omega
    · change (c.val + ('a'.val - 'A'.val)).toNat ≤ 122
      omega
  · rfl

lemma trim_map_toLower (s : List Char) :
    trim (s.map Char.toLower) = (trim s).map Char.toLower := by
  have hblank : isBlank ∘ Char.toLower = isBlank := funext isBlank_toLower
  simp only [trim, List.dropWhile_map, hblank, ← List.map_reverse]

end Text

namespace Ty

/-! ### Parts -/

lemma unassigned_union (t : Ty) : unassigned ∪ t = t := by
  cases t
  rfl

lemma union_unassigned (t : Ty) : t ∪ unassigned = t := by
  simp [Union.union, unassigned]

lemma union_assoc (t u v : Ty) : t ∪ u ∪ v = t ∪ (u ∪ v) := by
  simp [Union.union, Bool.or_assoc]

def joined : Except UnknownTypeName Ty → Except UnknownTypeName Ty → Except UnknownTypeName Ty
  | .ok t, .ok u => .ok (t ∪ u)
  | .error e, _ => .error e
  | .ok _, .error e => .error e

lemma joined_assoc (q r s : Except UnknownTypeName Ty) :
    joined (joined q r) s = joined q (joined r s) := by
  cases q with
  | error e => rfl
  | ok t =>
    cases r with
    | error e => rfl
    | ok u =>
      cases s with
      | error e => rfl
      | ok v => simp only [joined, union_assoc]

def readParts (parts : List (List Char)) : Except UnknownTypeName Ty :=
  parts.foldlM (fun t part => (t ∪ ·) <$> readPart part) unassigned

/-- What has been read before is joined to the rest. -/
lemma foldlM_readPart (parts : List (List Char)) (t : Ty) :
    parts.foldlM (fun t part => (t ∪ ·) <$> readPart part) t =
      joined (.ok t) (readParts parts) := by
  induction parts generalizing t with
  | nil => exact congrArg Except.ok (union_unassigned t).symm
  | cons part parts ih =>
    rw [readParts, List.foldlM_cons, List.foldlM_cons]
    cases readPart part with
    | error e => rfl
    | ok u =>
      change parts.foldlM _ (t ∪ u) = joined (.ok t) (parts.foldlM _ (unassigned ∪ u))
      rw [ih, ih, unassigned_union, ← joined_assoc]
      rfl

lemma readParts_append (ps qs : List (List Char)) :
    readParts (ps ++ qs) = joined (readParts ps) (readParts qs) := by
  rw [readParts, List.foldlM_append]
  change (readParts ps >>= fun t => qs.foldlM _ t) = _
  cases readParts ps with
  | error e => rfl
  | ok t => exact foldlM_readPart qs t

/-- A bar divides what is read. -/
lemma read_bar (s t : String) : read (s ++ "|" ++ t) = joined (read s) (read t) := by
  have hsplit : (s ++ "|" ++ t).toList.splitOn '|' =
      s.toList.splitOn '|' ++ t.toList.splitOn '|' := by
    rw [← List.splitOn_append_cons_self]
    simp
  exact (congrArg readParts hsplit).trans (readParts_append _ _)

/-! ### Names -/

def flagNames : List (String × Ty) :=
  [("unassigned", unassigned), ("number", number), ("string", string), ("error", error)]

lemma ofName?_eq_some_iff {name : String} {t : Ty} :
    ofName? name = some t ↔ (name, t) ∈ flagNames := by
  unfold ofName?
  split <;> simp_all [flagNames, eq_comm]

/-- A part without its blanks and capitals. -/
def partName (part : List Char) : String := String.ofList ((Text.trim part).map Char.toLower)

lemma readPart_eq (part : List Char) : readPart part =
    match ofName? (partName part) with
    | some t => .ok t
    | none => .error ⟨String.ofList (Text.trim part)⟩ := rfl

lemma readPart_eq_ok_iff {part : List Char} {t : Ty} :
    readPart part = .ok t ↔ (partName part, t) ∈ flagNames := by
  rw [← ofName?_eq_some_iff, readPart_eq]
  cases ofName? (partName part) <;> simp

lemma readPart_eq_error_iff {part : List Char} {e : UnknownTypeName} :
    readPart part = .error e ↔
      (∀ t, (partName part, t) ∉ flagNames) ∧ e.name = String.ofList (Text.trim part) := by
  obtain ⟨name⟩ := e
  simp only [← ofName?_eq_some_iff]
  rw [readPart_eq]
  cases ofName? (partName part) <;> simp [eq_comm]

lemma readParts_singleton (part : List Char) : readParts [part] = readPart part := by
  rw [readParts, List.foldlM_cons]
  cases readPart part with
  | error e => rfl
  | ok t => exact congrArg Except.ok (unassigned_union t)

lemma readParts_cons (part : List Char) (parts : List (List Char)) :
    readParts (part :: parts) = joined (readPart part) (readParts parts) := by
  rw [← readParts_singleton, ← readParts_append, List.singleton_append]

lemma read_of_notMem {s : String} (h : '|' ∉ s.toList) : read s = readPart s.toList := by
  rw [← readParts_singleton, ← List.splitOn_eq_singleton h]
  rfl

/-! ### Spellings -/

/-- The same letters up to ASCII case, with blanks around them. -/
def Spells (part name : List Char) : Prop :=
  ∃ before body after, part = before ++ body ++ after ∧ (∀ c ∈ before, Text.isBlank c = true) ∧
    (∀ c ∈ after, Text.isBlank c = true) ∧ body.map Char.toLower = name.map Char.toLower

/-- The same parts between the bars up to ASCII case, with blanks around each of them. -/
def Respells (s t : String) : Prop :=
  List.Forall₂ Spells (s.toList.splitOn '|') (t.toList.splitOn '|')

lemma Spells.partName_eq {part name : List Char} (h : Spells part name) :
    partName part = partName name := by
  obtain ⟨before, body, after, rfl, hbefore, hafter, hbody⟩ := h
  rw [partName, partName, Text.trim_append hbefore hafter, ← Text.trim_map_toLower, hbody,
    Text.trim_map_toLower]

lemma joined_eq_ok {q r : Except UnknownTypeName Ty} {t : Ty} (h : joined q r = .ok t) :
    ∃ a b, q = .ok a ∧ r = .ok b ∧ a ∪ b = t := by
  cases q with
  | error e => cases h
  | ok a =>
    cases r with
    | error e => cases h
    | ok b => exact ⟨a, b, rfl, rfl, Except.ok.inj h⟩

lemma readParts_of_spells {ps qs : List (List Char)} (h : List.Forall₂ Spells ps qs) {t : Ty}
    (hq : readParts qs = .ok t) : readParts ps = .ok t := by
  induction h generalizing t with
  | nil => exact hq
  | cons hp _ ih =>
    rw [readParts_cons] at hq ⊢
    obtain ⟨a, b, ha, hb, rfl⟩ := joined_eq_ok hq
    rw [readPart_eq_ok_iff, ← hp.partName_eq, ← readPart_eq_ok_iff] at ha
    rw [ha, ih hb]
    rfl

/-- Another spelling of what can be read is read alike. -/
lemma read_of_respells {s s' : String} (h : Respells s s') {t : Ty} (ht : read s' = .ok t) :
    read s = .ok t :=
  readParts_of_spells h ht

/-! ### Texts -/

def unionAll (ts : List Ty) : Ty := ts.foldr (· ∪ ·) unassigned

lemma read_text (t : Ty) : read t.text = .ok t := by
  have hread : ∀ a b c, read (text ⟨a, b, c⟩) = .ok ⟨a, b, c⟩ := by decide +kernel
  exact hread _ _ _

lemma read_intercalate {ts : List Ty} (h : ts ≠ []) :
    read ("|".intercalate (ts.map text)) = .ok (unionAll ts) := by
  induction ts with
  | nil => exact absurd rfl h
  | cons t ts ih =>
    rw [List.map_cons]
    by_cases hts : ts = []
    · subst hts
      rw [List.map_nil, String.intercalate_singleton, read_text, unionAll, List.foldr_cons,
        List.foldr_nil, union_unassigned]
    · have hne : ts.map text ≠ [] := by simpa using hts
      rw [String.intercalate_cons_of_ne_nil hne, read_bar, read_text, ih hts]
      rfl

/-- **Reading goes part by part and undoes writing.** A bar joins what is read on its two sides, and
the first error counts. A text without a bar is read if it is one of the four names, up to blanks at
its ends and ASCII case; if not, the error names it without these blanks and in its own case. So the
texts of some types, joined by bars, in any spacing and case, are read as the union of the types. -/
theorem read_part_by_part :
    (∀ s t : String, read (s ++ "|" ++ t) = joined (read s) (read t)) ∧
    (∀ s : String, '|' ∉ s.toList → ∃ body, Text.Trimmed s.toList body ∧
      (∀ t, read s = .ok t ↔ (String.ofList (body.map Char.toLower), t) ∈ flagNames) ∧
      ∀ e, read s = .error e ↔
        (∀ t, (String.ofList (body.map Char.toLower), t) ∉ flagNames) ∧
          e.name = String.ofList body) ∧
    ∀ (ts : List Ty) (s : String), ts ≠ [] → Respells s ("|".intercalate (ts.map text)) →
      read s = .ok (unionAll ts) := by
  refine ⟨read_bar, fun s hs => ?_, fun ts s hts hs => read_of_respells hs (read_intercalate hts)⟩
  rw [read_of_notMem hs]
  exact ⟨_, Text.trimmed_trim s.toList, fun t => readPart_eq_ok_iff, fun e => readPart_eq_error_iff⟩

/-- Three parts among wide and narrow blanks, in capitals and in small letters, and a name that is
none because capitals beyond ASCII stay capitals. -/
theorem read_part_by_part_spaced :
    let ts : List Ty := [⟨true, false, true⟩, .string]
    let s := "\u3000NumBer|ERROR\t|\u0085string "
    let u := "\u00a0NÜMBER\n"
    Respells s ("|".intercalate (ts.map text)) ∧ read s = .ok ⟨true, true, true⟩ ∧
      '|' ∉ u.toList ∧ read u = .error ⟨"NÜMBER"⟩ ∧
      read (s ++ "|" ++ u) = .error ⟨"NÜMBER"⟩ := by
  intro ts s u
  obtain ⟨hbar, hpart, hlist⟩ := read_part_by_part
  have hs : Respells s ("|".intercalate (ts.map text)) := by
    have hsplit : s.toList.splitOn '|' =
        ["\u3000NumBer".toList, "ERROR\t".toList, "\u0085string ".toList] := by decide +kernel
    have hnames : ("|".intercalate (ts.map text)).toList.splitOn '|' =
        ["number".toList, "error".toList, "string".toList] := by decide +kernel
    have hwide : ∀ c ∈ ['\u3000'], Text.isBlank c = true := List.forall_mem_singleton.mpr rfl
    have htab : ∀ c ∈ ['\t'], Text.isBlank c = true := List.forall_mem_singleton.mpr rfl
    have hnext : ∀ c ∈ ['\u0085'], Text.isBlank c = true := List.forall_mem_singleton.mpr rfl
    have hspace : ∀ c ∈ [' '], Text.isBlank c = true := List.forall_mem_singleton.mpr rfl
    have hnone : ∀ c ∈ ([] : List Char), Text.isBlank c = true := List.forall_mem_nil _
    rw [Respells, hsplit, hnames]
    exact .cons ⟨_, "NumBer".toList, _, by decide, hwide, hnone, by decide⟩
      (.cons ⟨_, "ERROR".toList, _, by decide, hnone, htab, by decide⟩
        (.cons ⟨_, "string".toList, _, by decide, hnext, hspace, by decide⟩ .nil))
  have hbarless : '|' ∉ u.toList := by decide
  obtain ⟨body, hbody, -, herror⟩ := hpart u hbarless
  have hname : body = "NÜMBER".toList := hbody.eq_trim.trans (by decide +kernel)
  have hlower : String.ofList ("NÜMBER".toList.map Char.toLower) = "nÜmber" := by decide
  have hu : read u = .error ⟨"NÜMBER"⟩ := by
    rw [herror, hname, hlower]
    exact ⟨by simp [flagNames], by simp⟩
  refine ⟨hs, hlist ts s (by simp) hs, hbarless, hu, ?_⟩
  rw [hbar, hlist ts s (by simp) hs, hu]
  rfl

end Ty

end TypeFlow
