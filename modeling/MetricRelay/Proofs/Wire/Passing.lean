import MetricRelay.Proofs.Wire.Reading

/-!
# Readers that are not done

A payload may end anywhere. `Unfinished` readers are those for which it
has ended too early, and bytes `Passes` from one reader to another if every
reader before the last one is unfinished, at whichever byte it stands.
Texts pass from quote to quote (`Hosts.passes`), and numbers pass if
whatever of them could be a number is one that fits as well
(`passes_number`).
-/

namespace MetricRelay.Wire.Reader

/-- A payload that ends here has ended too early. -/
def Unfinished (r : Reader) : Prop := ∀ now, r.finish now = .error .truncated

/-- The bytes take the reader from `r` to `s`, and no fewer of them
to one that could end there or has another fault. -/
structure Passes (r : Reader) (bs : List UInt8) (s : Reader) : Prop where
  reads : Reads r bs s
  unfinished : ∀ cs, cs <+: bs → cs ≠ bs → ∃ t, Reads r cs t ∧ t.Unfinished

variable {r s t : Reader} {d : Draft} {slot : Slot} {bs cs : List UInt8} {b : UInt8}

theorem Passes.nil (r : Reader) : Passes r [] r :=
  ⟨.nil r, fun _ hprefix hne => absurd (List.prefix_nil.mp hprefix) hne⟩

theorem Passes.cons (hr : r.Unfinished) (h : r.feed b = .ok s) (h' : Passes s bs t) :
    Passes r (b :: bs) t := by
  refine ⟨.cons h h'.reads, fun cs hprefix hne => ?_⟩
  rcases List.prefix_cons_iff.mp hprefix with rfl | ⟨cs, rfl, hrest⟩
  · exact ⟨r, .nil r, hr⟩
  · obtain ⟨u, hreads, hu⟩ := h'.unfinished cs hrest fun heq => hne (by rw [heq])
    exact ⟨u, .cons h hreads, hu⟩

theorem Passes.single (hr : r.Unfinished) (h : r.feed b = .ok s) : Passes r [b] s :=
  .cons hr h (.nil s)

theorem Passes.append (h : Passes r bs s) (h' : Passes s cs t) : Passes r (bs ++ cs) t := by
  refine ⟨h.reads.append h'.reads, fun ds hprefix hne => ?_⟩
  by_cases hlong : bs <+: ds
  · obtain ⟨es, rfl⟩ := hlong
    obtain ⟨u, hreads, hu⟩ := h'.unfinished es ((List.prefix_append_right_inj bs).mp hprefix)
      fun heq => hne (by rw [heq])
    exact ⟨u, h.reads.append hreads, hu⟩
  · have hshort : ds <+: bs :=
      (List.prefix_or_prefix_of_prefix hprefix (List.prefix_append bs cs)).resolve_right hlong
    exact h.unfinished ds hshort fun heq => hlong (heq ▸ List.prefix_rfl)

/-! ## Texts -/

theorem Hosts.passes {phase : TextToken → Phase} {settle : List UInt8 → Except Fault Reader}
    (h : Hosts d phase settle) (hphase : ∀ t, Unfinished ⟨d, phase t⟩) {token token' : TextToken}
    (htoken : token.feedAll bs = some token') : Passes ⟨d, phase token⟩ bs ⟨d, phase token'⟩ := by
  refine ⟨h.reads htoken, ?_⟩
  rintro cs ⟨ds, rfl⟩ -
  rw [TextToken.feedAll_append] at htoken
  obtain ⟨t, ht, -⟩ := Option.bind_eq_some_iff.mp htoken
  exact ⟨_, h.reads ht, hphase t⟩

/-! ## Numbers -/

/-- What has been read of a number for a part of the metric does not end
the payload before its time if it cannot be a number, or is one that fits. -/
theorem unfinished_number {form : Form} {f : Field} {token : NumberToken}
    (h : token.complete → ∃ s,
      settleNumber ⟨d, .number (.field form f) token⟩ (.field form f) token = .ok s) :
    Unfinished ⟨d, .number (.field form f) token⟩ := by
  intro now
  show Except.error (numberAtEnd _ _ token) = _
  congr 1
  unfold numberAtEnd
  split
  · next hcomplete =>
    obtain ⟨s, hs⟩ := h hcomplete
    rw [hs]
  · rfl

theorem passes_number {form : Form} {f : Field} {token : NumberToken}
    (h : NumberToken.read? bs = some token)
    (hfits : ∀ cs ds t, NumberToken.read? cs = some t → t.feedAll ds = some token → t.complete →
      ∃ s, settleNumber ⟨d, .number (.field form f) t⟩ (.field form f) t = .ok s) :
    Passes ⟨d, .value (.field form f)⟩ bs ⟨d, .number (.field form f) token⟩ := by
  refine ⟨reads_number h, ?_⟩
  rintro cs ⟨ds, rfl⟩ -
  rcases eq_or_ne cs [] with rfl | hcs
  · exact ⟨_, .nil _, fun _ => rfl⟩
  · rw [NumberToken.read?_append hcs] at h
    obtain ⟨t, ht, hrest⟩ := Option.bind_eq_some_iff.mp h
    exact ⟨_, reads_number ht, unfinished_number (hfits cs ds t ht hrest)⟩

/-- A number and the byte behind it. -/
theorem passes_number_end {form : Form} {f : Field} {token : NumberToken}
    (h : NumberToken.read? bs = some token)
    (hfits : ∀ cs ds t, NumberToken.read? cs = some t → t.feedAll ds = some token → t.complete →
      ∃ s, settleNumber ⟨d, .number (.field form f) t⟩ (.field form f) t = .ok s)
    (hend : (⟨d, .number (.field form f) token⟩ : Reader).feed b = .ok s) :
    Passes ⟨d, .value (.field form f)⟩ (bs ++ [b]) s :=
  (passes_number h hfits).append (.single (unfinished_number (hfits bs [] token h rfl)) hend)

end MetricRelay.Wire.Reader
