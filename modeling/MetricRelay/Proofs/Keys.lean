import MetricRelay.Proofs.Names

/-!
# Keys and the segments that remain

A pattern leaves of a name the segments that it keeps and all past it
(`remaining`), and the key is these segments joined by dots. No segment
holds a dot, so cutting the key gives them back (`segments_dotted`), but
for the one list that is not cut from any text: no segments at all. It
is joined to the empty text like a single empty segment, and neither of
the two has a key (`keyFor?_eq_none_iff`).
-/

namespace MetricRelay

/-! ## Joined segments -/

namespace Text

theorem not_mem_of_mem_cut {sep : Char} {cs s : List Char} (h : s ∈ cut sep cs) : sep ∉ s := by
  induction cs generalizing s with
  | nil =>
    rw [cut, List.mem_singleton] at h
    exact h ▸ List.not_mem_nil
  | cons c cs ih =>
    obtain ⟨t, ts, hcut⟩ := List.exists_cons_of_ne_nil (cut_ne_nil sep cs)
    rw [hcut] at ih
    by_cases hc : c = sep
    · rw [cut, if_pos hc, hcut] at h
      rcases List.mem_cons.mp h with rfl | h
      · exact List.not_mem_nil
      · exact ih h
    · rw [cut, if_neg hc, hcut] at h
      rcases List.mem_cons.mp h with rfl | h
      · rintro (_ | ⟨_, hsep⟩)
        · exact hc rfl
        · exact ih (List.mem_cons_self ..) hsep
      · exact ih (List.mem_cons_of_mem t h)

theorem not_mem_of_mem_segments {name s : String} (h : s ∈ segments name) : '.' ∉ s.toList := by
  obtain ⟨cs, hcs, rfl⟩ := List.mem_map.mp h
  rw [String.toList_ofList]
  exact not_mem_of_mem_cut hcs

theorem segments_dotted {ss : List String} (hne : ss ≠ []) (h : ∀ s ∈ ss, '.' ∉ s.toList) :
    segments (dotted ss) = ss := by
  have hdots : ∀ cs ∈ ss.map String.toList, '.' ∉ cs := by
    intro cs hcs
    obtain ⟨s, hs, rfl⟩ := List.mem_map.mp hcs
    exact h s hs
  rw [segments, dotted, String.toList_ofList, cut_paste (by simpa using hne) hdots, List.map_map]
  exact List.map_id'' (fun _ => String.ofList_toList) ss

/-- Only two lists of segments are joined to the empty text. -/
theorem dotted_eq_empty_iff {ss : List String} : dotted ss = "" ↔ ss = [] ∨ ss = [""] := by
  match ss with
  | [] => exact ⟨fun _ => Or.inl rfl, fun _ => rfl⟩
  | [s] =>
    have hdotted : dotted [s] = s := String.ofList_toList
    simp [hdotted]
  | s :: t :: ss =>
    refine iff_of_false (fun h => ?_) (by simp)
    have hlist := congrArg String.toList h
    rw [dotted, String.toList_ofList, List.map_cons, List.map_cons, paste] at hlist
    exact List.cons_ne_nil _ _ (List.append_eq_nil_iff.mp hlist).2

end Text

namespace KeyPattern

variable {p : KeyPattern} {name key : String}

/-! ## What remains of a name -/

/-- The segments of the list that rules keep, and those past the rules. -/
def kept (rules : List SegmentRule) (ss : List String) : List String :=
  ((ss.zip rules).filter (·.2 = .keep)).map Prod.fst ++ ss.drop rules.length

/-- The segments that a pattern leaves of a name. -/
def remaining (p : KeyPattern) (name : String) : List String :=
  kept p.rules (Text.segments name)

theorem keep?_eq (rules : List SegmentRule) (ss : List String) :
    keep? rules ss = if ss.length < rules.length then none else some (kept rules ss) := by
  induction rules generalizing ss with
  | nil => simp [keep?, kept]
  | cons rule rules ih =>
    cases ss with
    | nil => rfl
    | cons s ss =>
      cases rule with
      | keep =>
        rw [keep?, ih]
        simp only [List.length_cons, Nat.add_lt_add_iff_right]
        split <;> rfl
      | discard =>
        rw [keep?, ih]
        simp only [List.length_cons, Nat.add_lt_add_iff_right]
        rfl

theorem mem_segments_of_mem_remaining {s : String} (h : s ∈ p.remaining name) :
    s ∈ Text.segments name := by
  rcases List.mem_append.mp h with h | h
  · obtain ⟨⟨s, rule⟩, hmem, rfl⟩ := List.mem_map.mp h
    exact (List.of_mem_zip (List.mem_filter.mp hmem).1).1
  · exact List.mem_of_mem_drop h

theorem keyFor?_eq (p : KeyPattern) (name : String) :
    p.keyFor? name = if (Text.segments name).length < p.rules.length
        ∨ p.remaining name = [] ∨ p.remaining name = [""] then none
      else some (Text.dotted (p.remaining name)) := by
  rw [keyFor?, keep?_eq]
  by_cases hshort : (Text.segments name).length < p.rules.length
  · rw [if_pos hshort, if_pos (Or.inl hshort)]
  · rw [if_neg hshort]
    simp only [hshort, false_or, ← Text.dotted_eq_empty_iff]
    rfl

theorem keyFor?_eq_none_iff : p.keyFor? name = none ↔
    (Text.segments name).length < p.rules.length ∨ p.remaining name = []
      ∨ p.remaining name = [""] := by
  rw [keyFor?_eq, ite_eq_left_iff]
  exact ⟨fun h => Decidable.by_contra fun hnone => Option.some_ne_none _ (h hnone), absurd⟩

/-- The segments of a key are those that remain of the name. -/
theorem segments_key (h : p.keyFor? name = some key) : Text.segments key = p.remaining name := by
  rw [keyFor?_eq] at h
  split at h
  · cases h
  · next hsome =>
    cases h
    refine Text.segments_dotted (fun hnil => hsome (Or.inr (Or.inl hnil))) fun s hs => ?_
    exact Text.not_mem_of_mem_segments (mem_segments_of_mem_remaining hs)

/-- A name has no key just when it is too short for the pattern or no text
remains of it. A key is cut into what remains of the name, so two names
have one key just when the same segments remain of them. -/
theorem keys_match_remaining (p : KeyPattern) :
    (∀ name, p.keyFor? name = none ↔ (Text.segments name).length < p.rules.length
        ∨ p.remaining name = [] ∨ p.remaining name = [""])
      ∧ (∀ name key, p.keyFor? name = some key → Text.segments key = p.remaining name)
      ∧ ∀ name name' key key', p.keyFor? name = some key → p.keyFor? name' = some key' →
          (key = key' ↔ p.remaining name = p.remaining name') := by
  refine ⟨fun name => keyFor?_eq_none_iff, fun name key => segments_key, ?_⟩
  intro name name' key key' h h'
  rw [← Text.segments_inj, segments_key h, segments_key h']

/-- Empty segments are segments like others, but one by itself is no
key. -/
theorem keys_match_remaining_of_empty_segments :
    let p : KeyPattern := ⟨[.discard, .keep]⟩
    p.keyFor? "a..b" = some ".b" ∧ Text.segments ".b" = p.remaining "a..b"
      ∧ p.remaining "a..b" = p.remaining "..b"
      ∧ p.keyFor? "a." = none := by
  intro p
  obtain ⟨hnone, hsegments, hequal⟩ := keys_match_remaining p
  have hkey : p.keyFor? "a..b" = some ".b" := by decide
  have hkey' : p.keyFor? "..b" = some ".b" := by decide
  refine ⟨hkey, hsegments _ _ hkey, (hequal _ _ _ _ hkey hkey').mp rfl, (hnone "a.").mpr ?_⟩
  exact Or.inr (Or.inr (by decide))

end KeyPattern

end MetricRelay
