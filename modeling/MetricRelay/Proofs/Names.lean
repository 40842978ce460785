import MetricRelay.KeyPattern
import MetricRelay.Metric

/-!
# Names and what is read off them

The segments of a name that was put together of two are those of the
first and then those of the second, so nothing is lost when names are
compared by their segments (`append_dot_inj`). A key pattern that
discards a producer's segments leaves the metric's own name, and the
family of a name is a matter of how the name begins.
-/

namespace MetricRelay

namespace Text

theorem cut_append (sep : Char) (cs ds : List Char) :
    cut sep (cs ++ sep :: ds) = cut sep cs ++ cut sep ds := by
  induction cs with
  | nil => simp [cut]
  | cons c cs ih =>
    by_cases h : c = sep
    · simp [cut, h, ih]
    · obtain ⟨s, ss, hcut⟩ := List.exists_cons_of_ne_nil (cut_ne_nil sep cs)
      rw [List.cons_append, cut, if_neg h, ih, cut, if_neg h, hcut]
      rfl

theorem segments_append (s t : String) : segments (s ++ "." ++ t) = segments s ++ segments t := by
  have hlist : (s ++ "." ++ t).toList = s.toList ++ '.' :: t.toList := by simp
  rw [segments, hlist, cut_append, List.map_append]
  rfl

theorem segments_inj {s t : String} : segments s = segments t ↔ s = t := by
  constructor
  · intro h
    rw [← dotted_segments s, h, dotted_segments]
  · rintro rfl
    rfl

/-- Names with equally many segments before a dot are equal only part by
part, whatever stands behind the dot. -/
theorem append_dot_inj {s s' t t' : String}
    (h : (segments s).length = (segments s').length) :
    s ++ "." ++ t = s' ++ "." ++ t' ↔ s = s' ∧ t = t' := by
  constructor
  · intro heq
    have hsegments := congrArg segments heq
    rw [segments_append, segments_append] at hsegments
    obtain ⟨hs, ht⟩ := List.append_inj hsegments h
    exact ⟨segments_inj.mp hs, segments_inj.mp ht⟩
  · rintro ⟨rfl, rfl⟩
    rfl

theorem startsWith_iff {s p : String} :
    startsWith s p ↔ ∃ rest, s.toList = p.toList ++ rest := by
  unfold startsWith
  rw [Option.isSome_iff_exists]
  exact exists_congr fun rest => dropBeginning?_eq_some_iff

theorem stripBeginning?_eq_some_iff {s p rest : String} :
    stripBeginning? s p = some rest ↔ s = p ++ rest := by
  rw [stripBeginning?, Option.map_eq_some_iff, ← String.toList_inj, String.toList_append]
  constructor
  · rintro ⟨cs, hcs, rfl⟩
    rw [String.toList_ofList]
    exact dropBeginning?_eq_some_iff.mp hcs
  · intro h
    exact ⟨rest.toList, dropBeginning?_eq_some_iff.mpr h, String.ofList_toList⟩

theorem stripBeginning?_append (p s : String) : stripBeginning? (p ++ s) p = some s :=
  stripBeginning?_eq_some_iff.mpr rfl

theorem isSome_stripBeginning? (s p : String) : (stripBeginning? s p).isSome = startsWith s p :=
  Option.isSome_map

end Text

/-! ## Keys -/

namespace KeyPattern

theorem keep?_discard (ss ts : List String) :
    keep? (List.replicate ss.length .discard) (ss ++ ts) = some ts := by
  induction ss with
  | nil => rfl
  | cons s ss ih => exact ih

/-- Without the three segments of its producer a name is the metric's
own. -/
theorem keyFor?_default {ns name : String} (hns : (Text.segments ns).length = 3)
    (hname : name ≠ "") : default.keyFor? (ns ++ "." ++ name) = some name := by
  have hkeep : keep? default.rules (Text.segments ns ++ Text.segments name)
      = some (Text.segments name) := by
    rw [← keep?_discard (Text.segments ns), hns]
    rfl
  rw [keyFor?, Text.segments_append, hkeep]
  dsimp only
  rw [Text.dotted_segments, if_neg hname]

end KeyPattern

/-! ## Families -/

namespace Family

theorem beforeDot?_eq_some_iff {cs s : List Char} :
    beforeDot? cs = some s ↔ '.' ∉ s ∧ ∃ rest, cs = s ++ '.' :: rest := by
  induction cs generalizing s with
  | nil => simp [beforeDot?]
  | cons c cs ih =>
    by_cases h : c = '.'
    · rw [beforeDot?, if_pos h, Option.some.injEq]
      constructor
      · rintro rfl
        exact ⟨List.not_mem_nil, cs, by rw [h]; rfl⟩
      · rintro ⟨hdot, rest, heq⟩
        cases s with
        | nil => rfl
        | cons d s =>
          obtain ⟨rfl, -⟩ := List.cons.inj heq
          exact absurd h fun hd => hdot (by simp [hd])
    · rw [beforeDot?, if_neg h, Option.map_eq_some_iff]
      constructor
      · rintro ⟨s, hs, rfl⟩
        obtain ⟨hdot, rest, rfl⟩ := ih.mp hs
        refine ⟨?_, rest, rfl⟩
        simp [hdot, Ne.symm h]
      · rintro ⟨hdot, rest, heq⟩
        cases s with
        | nil =>
          obtain ⟨rfl, -⟩ := List.cons.inj heq
          exact absurd rfl h
        | cons d s =>
          obtain ⟨rfl, rfl⟩ := List.cons.inj heq
          exact ⟨s, ih.mpr ⟨fun hs => hdot (List.mem_cons_of_mem c hs), rest, rfl⟩, rfl⟩

theorem named?_eq_some_iff {segment : String} {f : Family} :
    named? segment = some f ↔ segment = f.segment := by
  constructor
  · intro h
    unfold named? at h
    split at h
    · next heq =>
      cases h
      exact heq
    · split at h
      · next heq =>
        cases h
        exact heq
      · split at h
        · next heq =>
          cases h
          exact heq
        · cases h
  · rintro rfl
    cases f <;> rfl

/-- A name is of a family just when it begins with the family's segment
and a dot. -/
theorem of?_eq_some_iff {name : String} {f : Family} :
    of? name = some f ↔ Text.startsWith name (f.segment ++ ".") := by
  have hdot : '.' ∉ f.segment.toList := by cases f <;> decide
  have hbeginning : (f.segment ++ ".").toList = f.segment.toList ++ ['.'] := by simp
  rw [Text.startsWith_iff, hbeginning]
  unfold of?
  rw [Option.bind_eq_some_iff]
  constructor
  · rintro ⟨cs, hbefore, hnamed⟩
    obtain ⟨-, rest, hrest⟩ := beforeDot?_eq_some_iff.mp hbefore
    refine ⟨rest, ?_⟩
    rw [hrest, ← named?_eq_some_iff.mp hnamed, String.toList_ofList, List.append_assoc]
    rfl
  · rintro ⟨rest, hrest⟩
    rw [List.append_assoc] at hrest
    refine ⟨f.segment.toList, beforeDot?_eq_some_iff.mpr ⟨hdot, rest, hrest⟩, ?_⟩
    rw [String.ofList_toList]
    exact named?_eq_some_iff.mpr rfl

end Family

end MetricRelay
