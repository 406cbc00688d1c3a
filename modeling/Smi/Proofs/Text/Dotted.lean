import Smi.Text.Blank

/-!
# Parts of a text

A text is cut at the occurrences of a separator and joined by it, and neither loses anything. Of two
texts one begins with all parts of the other exactly when it begins with the other text and goes on
with the separator, if at all.
-/

namespace Smi.Text

variable {separator : Char}

/-- Cutting characters into pieces is splitting them at the cuts. -/
theorem pieces_eq_splitOnP (cut : Char → Bool) (cs : List Char) :
    pieces cut cs = cs.splitOnP cut := by
  induction cs with
  | nil => rfl
  | cons c rest ih =>
    rw [pieces, ih, List.splitOnP_cons_eq_if_modifyHead]
    split
    · rfl
    · cases hrest : rest.splitOnP cut with
      | nil => exact absurd hrest (List.splitOnP_ne_nil _ _)
      | cons first others => rfl

/-- Cutting a text at a separator is splitting its characters there. -/
theorem splitAt_eq_splitOn (separator : Char) (text : String) :
    splitAt separator text = (text.toList.splitOn separator).map String.ofList := by
  rw [splitAt, pieces_eq_splitOnP]
  rfl

/-- A text has at least one part. -/
theorem splitAt_ne_nil (separator : Char) (text : String) : splitAt separator text ≠ [] := by
  rw [splitAt_eq_splitOn]
  exact mt List.map_eq_nil_iff.mp (List.splitOnP_ne_nil _ _)

/-- Parts without the separator are found again in the text that they are joined to. -/
theorem splitAt_intercalate {parts : List String} (hne : parts ≠ [])
    (hfree : ∀ part ∈ parts, separator ∉ part.toList) :
    splitAt separator ((String.singleton separator).intercalate parts) = parts := by
  have hparts : ∀ cs ∈ parts.map String.toList, separator ∉ cs := by simpa using hfree
  rw [splitAt_eq_splitOn, String.toList_intercalate, String.toList_singleton,
    List.splitOn_intercalate _ hparts (mt List.map_eq_nil_iff.mp hne), List.map_map]
  exact List.map_id'' (fun _ => String.ofList_toList) parts

/-- The characters of a text are its parts joined by the separator. -/
theorem intercalate_splitAt (separator : Char) (text : String) :
    [separator].intercalate ((splitAt separator text).map String.toList) = text.toList := by
  rw [splitAt_eq_splitOn, List.map_map]
  exact (congrArg _ (List.map_id'' (fun _ => String.toList_ofList) _)).trans
    (List.intercalate_splitOn _)

/-- A text is known by its parts. -/
theorem splitAt_injective (separator : Char) : Function.Injective (splitAt separator) :=
  fun a b h => String.toList_injective
    (by rw [← intercalate_splitAt separator a, h, intercalate_splitAt])

/-- The parts of a text are those before a separator and those behind it. -/
theorem splitAt_append (first rest : List Char) :
    splitAt separator (String.ofList (first ++ separator :: rest)) =
      splitAt separator (String.ofList first) ++ splitAt separator (String.ofList rest) := by
  simp only [splitAt_eq_splitOn, String.toList_ofList, ← List.map_append, List.splitOn]
  rw [List.splitOnP_append_cons first rest (p := (· == separator)) (beq_self_eq_true separator)]

/-- A separator stands between the parts in front and those behind. -/
theorem intercalate_append_cons {first : List (List Char)} (hne : first ≠ []) (part : List Char)
    (rest : List (List Char)) : [separator].intercalate (first ++ part :: rest) =
      [separator].intercalate first ++ separator :: [separator].intercalate (part :: rest) := by
  induction first with
  | nil => exact absurd rfl hne
  | cons a others ih =>
    cases others with
    | nil => simp [List.intercalate_cons_cons]
    | cons b others =>
      rw [List.cons_append, List.cons_append, List.intercalate_cons_cons, ← List.cons_append,
        ih (List.cons_ne_nil _ _), List.intercalate_cons_cons]
      simp

/-- What parts are put together of is the separator and their characters. -/
theorem mem_of_mem_intercalate {parts : List (List Char)} {c : Char}
    (h : c ∈ [separator].intercalate parts) : c = separator ∨ ∃ part ∈ parts, c ∈ part := by
  induction parts with
  | nil => cases h
  | cons a others ih =>
    cases others with
    | nil => exact .inr ⟨a, List.mem_cons_self, by simpa using h⟩
    | cons b others =>
      rw [List.intercalate_cons_cons] at h
      rcases List.mem_append.mp h with hfirst | hrest
      · rcases List.mem_append.mp hfirst with ha | hseparator
        · exact .inr ⟨a, List.mem_cons_self, ha⟩
        · exact .inl (List.mem_singleton.mp hseparator)
      · exact (ih hrest).imp_right fun ⟨part, hpart, hc⟩ =>
          ⟨part, List.mem_cons_of_mem _ hpart, hc⟩

/-- Parts are joined by putting the separator behind each but the last of them. -/
theorem intercalate_concat (parts : List (List Char)) (last : List Char) :
    [separator].intercalate (parts ++ [last]) =
      parts.flatMap (fun part => part ++ [separator]) ++ last := by
  induction parts with
  | nil => simp
  | cons a others ih =>
    cases others with
    | nil => simp [List.intercalate_cons_cons]
    | cons b others =>
      rw [List.cons_append, List.cons_append, List.intercalate_cons_cons, ← List.cons_append, ih]
      simp

/-- The parts of a text come first in another one if that text begins with it and goes on with the
separator. -/
theorem splitAt_prefix_iff {start whole : String} :
    splitAt separator start <+: splitAt separator whole ↔
      ∃ rest, whole.toList = start.toList ++ rest ∧ ∀ c ∈ rest.head?, c = separator := by
  constructor
  · rintro ⟨tail, htail⟩
    rw [← intercalate_splitAt separator whole, ← htail, List.map_append]
    cases tail with
    | nil => exact ⟨[], by rw [List.map_nil, List.append_nil, intercalate_splitAt, List.append_nil],
        fun _ h => nomatch h⟩
    | cons part rest =>
      rw [List.map_cons, intercalate_append_cons
        (mt List.map_eq_nil_iff.mp (splitAt_ne_nil separator start)), intercalate_splitAt]
      exact ⟨_, rfl, fun c hc => (Option.some.inj hc).symm⟩
  · rintro ⟨rest, hwhole, hrest⟩
    have hsame : whole = String.ofList (start.toList ++ rest) := by
      rw [← hwhole, String.ofList_toList]
    cases rest with
    | nil =>
      obtain rfl : whole = start := by rw [hsame, List.append_nil, String.ofList_toList]
      exact List.prefix_rfl
    | cons c rest =>
      obtain rfl := hrest c rfl
      rw [hsame, splitAt_append, String.ofList_toList]
      exact List.prefix_append _ _

/-- A text with more parts behind those of another one is longer. -/
theorem eq_or_length_lt_of_prefix {start whole : String}
    (h : splitAt separator start <+: splitAt separator whole) :
    start = whole ∨ start.length < whole.length ∧
      (splitAt separator start).length < (splitAt separator whole).length := by
  by_cases hsame : start = whole
  · exact .inl hsame
  obtain ⟨rest, hwhole, _⟩ := splitAt_prefix_iff.mp h
  refine .inr ⟨?_, Nat.lt_of_le_of_ne h.length_le fun heq => ?_⟩
  · have hrest : rest ≠ [] := by
      rintro rfl
      exact hsame (String.toList_injective (by rw [hwhole, List.append_nil]))
    rw [← String.length_toList, ← String.length_toList, hwhole, List.length_append]
    exact Nat.lt_add_of_pos_right (List.length_pos_iff.mpr hrest)
  · exact hsame (splitAt_injective separator (h.eq_of_length heq))

end Smi.Text
