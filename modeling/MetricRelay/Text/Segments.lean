/-!
# Segments

Names, patterns and keys are texts cut into segments at a separator.
`cut` finds the segments and `paste` puts them back; each undoes the
other (`paste_cut`, `cut_paste`), so a text and its segments carry the
same information.
-/

namespace MetricRelay.Text

/-- The segments of a text. A text without a separator is one segment,
and two separators in a row hold an empty segment between them. -/
def cut (sep : Char) : List Char → List (List Char)
  | [] => [[]]
  | c :: cs =>
    if c = sep then
      [] :: cut sep cs
    else
      match cut sep cs with
      | [] => [[c]]
      | s :: ss => (c :: s) :: ss

/-- The text with the given segments, one separator between neighbours. -/
def paste (sep : Char) : List (List Char) → List Char
  | [] => []
  | [s] => s
  | s :: t :: ss => s ++ sep :: paste sep (t :: ss)

theorem cut_ne_nil (sep : Char) (cs : List Char) : cut sep cs ≠ [] := by
  cases cs with
  | nil => simp [cut]
  | cons c cs =>
    by_cases h : c = sep
    · simp [cut, h]
    · simp only [cut, if_neg h]
      cases cut sep cs <;> simp

/-- Pasting the segments of a text gives the text back. -/
theorem paste_cut (sep : Char) (cs : List Char) : paste sep (cut sep cs) = cs := by
  induction cs with
  | nil => rfl
  | cons c cs ih =>
    obtain ⟨s, ss, hcut⟩ := List.exists_cons_of_ne_nil (cut_ne_nil sep cs)
    by_cases h : c = sep
    · simp only [cut, if_pos h, hcut, paste, List.nil_append]
      rw [← hcut, ih, h]
    · rw [hcut] at ih
      simp only [cut, if_neg h, hcut]
      cases ss with
      | nil => simpa [paste] using ih
      | cons t ss => simpa [paste] using ih

/-- A text without the separator is its own only segment. -/
theorem cut_of_not_mem {sep : Char} {s : List Char} (h : sep ∉ s) : cut sep s = [s] := by
  induction s with
  | nil => rfl
  | cons c cs ih =>
    simp only [List.mem_cons, not_or] at h
    simp [cut, Ne.symm h.1, ih h.2]

/-- Up to the first separator a text is its first segment. -/
theorem cut_append_sep {sep : Char} {s : List Char} (h : sep ∉ s) (cs : List Char) :
    cut sep (s ++ sep :: cs) = s :: cut sep cs := by
  induction s with
  | nil => simp [cut]
  | cons c s ih =>
    simp only [List.mem_cons, not_or] at h
    simp [cut, Ne.symm h.1, ih h.2]

/-- Cutting a pasted text finds the segments again, provided there is
one and none of them holds the separator. -/
theorem cut_paste {sep : Char} {ss : List (List Char)} (hne : ss ≠ [])
    (h : ∀ s ∈ ss, sep ∉ s) : cut sep (paste sep ss) = ss := by
  induction ss with
  | nil => exact absurd rfl hne
  | cons s ss ih =>
    cases ss with
    | nil => exact cut_of_not_mem (h s (by simp))
    | cons t ss =>
      rw [paste, cut_append_sep (h s (by simp)),
        ih (by simp) fun u hu => h u (List.mem_cons_of_mem s hu)]

/-! ## Texts as strings -/

/-- The segments of `s` at the dots. -/
def segments (s : String) : List String :=
  (cut '.' s.toList).map String.ofList

/-- The segments joined by dots. -/
def dotted (ss : List String) : String :=
  String.ofList (paste '.' (ss.map String.toList))

theorem dotted_segments (s : String) : dotted (segments s) = s := by
  simp [dotted, segments, Function.comp_def, paste_cut]

end MetricRelay.Text
