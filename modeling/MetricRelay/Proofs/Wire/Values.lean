import MetricRelay.Proofs.Wire.Reading
import MetricRelay.Proofs.Wire.Tokens

/-!
# Values are read to their end

A reader takes any spelled value for exactly what it is, neither more nor
less. A value that is skipped leads from the phase before it to the phase
behind it, whatever its depth (`skips`); a value that is read as a part of
the metric leaves that part in the draft, or the fault that it deserves
(`settles_field`).

Since a number ends only with the byte behind it, `Settles` speaks of a
value together with any byte that can follow one. The proof for skipped
values is an induction over their spelling, one case for each way of
spelling a part; `Skips` says which phases a part leads from and to.
-/

namespace MetricRelay.Wire

namespace Reader

variable {r r' s : Reader} {d : Draft} {bs cs : List UInt8} {b : UInt8}
  {e : Except Fault Reader}

/-! ## Blanks -/

/-- Between tokens. -/
def idle : Phase → Bool
  | .text .. | .number .. | .word .. | .key _ | .skipKey .. => false
  | _ => true

theorem feed_blank (d : Draft) {phase : Phase} (h : idle phase) (w : Blank) :
    (⟨d, phase⟩ : Reader).feed w.byte = .ok ⟨d, phase⟩ := by
  cases w <;> cases phase <;> first | rfl | cases h

theorem reads_blanks (d : Draft) {phase : Phase} (h : idle phase) (ws : List Blank) :
    Reads ⟨d, phase⟩ (blanks ws) ⟨d, phase⟩ := by
  induction ws with
  | nil => exact .nil _
  | cons w ws ih => exact .cons (feed_blank d h w) ih

/-! ## What follows a value -/

/-- Whatever follows the bytes is read by the reader that `e` is, if it is
one. -/
def Settles (r : Reader) (bs : List UInt8) (e : Except Fault Reader) : Prop :=
  ∀ b, follows b → r.readOn (bs ++ [b]) = e.bind fun s => s.feed b

theorem Settles.readOn (h : Settles r bs e) (hb : follows b) (cs : List UInt8) :
    r.readOn (bs ++ b :: cs) = e.bind fun s => s.readOn (b :: cs) := by
  rw [List.append_cons, readOn_append, h b hb]
  cases e with
  | error fault => rfl
  | ok s => rfl

theorem settles_of_readOn (h : r.readOn bs = e) : Settles r bs e := by
  intro b _
  rw [readOn_append, h]
  cases e with
  | error fault => rfl
  | ok s => exact s.readOn_single b

theorem Reads.settles (h : Reads r bs s) : Settles r bs (.ok s) := settles_of_readOn h

/-- What is in front of the value. -/
theorem Reads.settles_append (h : Reads r bs s) (h' : Settles s cs e) : Settles r (bs ++ cs) e := by
  intro b hb
  rw [List.append_assoc, h.readOn]
  exact h' b hb

theorem blank_follows (w : Blank) : follows w.byte := by
  cases w <;> rfl

/-! ## Texts -/

variable {phase : TextToken → Phase} {settle : List UInt8 → Except Fault Reader}
  {t t' : TextToken}

theorem Hosts.readOn_breaks (h : Hosts d phase settle) {fault : Fault}
    (ht : t.feed b = .error fault) (cs : List UInt8) :
    (⟨d, phase t⟩ : Reader).readOn (b :: cs) = .error fault := by
  rw [readOn_cons, h t b, ht]
  rfl

theorem Hosts.readOn_closing (h : Hosts d phase settle) (strict : Bool) (content : List UInt8) :
    (⟨d, phase ⟨strict, content, .plain⟩⟩ : Reader).readOn [0x22] = settle content :=
  (readOn_single _ _).trans (h.feed_closing strict content)

theorem Hosts.readOn_skipped (h : Hosts d phase settle) (gs : List Glyph) :
    (⟨d, phase (.start false)⟩ : Reader).readOn (gs.flatMap Glyph.bytes ++ [0x22])
      = settle [] := by
  induction gs with
  | nil => exact h.readOn_closing false []
  | cons g gs ih =>
    rw [List.flatMap_cons, List.append_assoc, (h.reads (TextToken.feedAll_skipped g)).readOn]
    exact ih

/-- One half of a surrogate pair is followed by the other. -/
theorem Hosts.readOn_loneHigh (h : Hosts d phase settle) (content : List UInt8) (high : Nat)
    {gs : List Glyph} (hgs : ∀ c gs', gs = .code c :: gs' → ¬ TextToken.isLow c.value) :
    (⟨d, phase ⟨true, content, .pair high⟩⟩ : Reader).readOn (gs.flatMap Glyph.bytes ++ [0x22])
      = .error .malformed := by
  cases gs with
  | nil => exact h.readOn_breaks rfl []
  | cons g gs =>
    rw [List.flatMap_cons, List.append_assoc]
    cases g with
    | plain b hb =>
      refine h.readOn_breaks ?_ _
      simp [TextToken.feed, hb.2.2]
    | escape e =>
      have hbackslash : (⟨true, content, .pair high⟩ : TextToken).feedAll [0x5C]
          = some ⟨true, content, .pairEscape high⟩ := rfl
      refine ((h.reads hbackslash).readOn _).trans (h.readOn_breaks ?_ _)
      simp [TextToken.feed, TextToken.letter_ne e]
    | code c =>
      rw [TextToken.Code.bytes_eq, List.append_assoc,
        (h.reads (TextToken.feedAll_pairDigits content high c)).readOn]
      refine h.readOn_breaks ?_ _
      rw [TextToken.feed_lastDigit _ (some high) c rfl,
        TextToken.takeCode_loneHigh rfl high (hgs c gs rfl)]
      rfl

/-- A text that is read gives what it stands for, or is malformed. -/
theorem Hosts.readOn_content (h : Hosts d phase settle) (gs : List Glyph) (content : List UInt8) :
    (⟨d, phase (.holding content)⟩ : Reader).readOn (gs.flatMap Glyph.bytes ++ [0x22])
      = match content? gs with
        | some c => settle (c.reverse ++ content)
        | none => .error .malformed := by
  -- the cases are those of `content?`; from `case4` on a code comes first
  fun_induction content? gs generalizing content with
  | case1 => exact h.readOn_closing true content
  | case2 b hb gs ih =>
    rw [List.flatMap_cons, List.append_assoc,
      (h.reads (TextToken.feedAll_plain_glyph hb content)).readOn, ih]
    cases content? gs <;> simp
  | case3 e gs ih =>
    rw [List.flatMap_cons, List.append_assoc, (h.reads (TextToken.feedAll_escape e content)).readOn, ih]
    cases content? gs <;> simp
  | case4 c gs hlow =>
    rw [List.flatMap_cons, List.append_assoc, TextToken.Code.bytes_eq, List.append_assoc,
      TextToken.holding, (h.reads (TextToken.feedAll_digits true content c)).readOn]
    refine h.readOn_breaks ?_ _
    rw [TextToken.feed_lastDigit _ none c rfl, TextToken.takeCode_loneLow rfl hlow]
    rfl
  | case5 c hlow hhigh d gs hd pair ih =>
    rw [List.flatMap_cons, List.flatMap_cons, ← List.append_assoc, List.append_assoc,
      (h.reads (TextToken.feedAll_surrogates hlow hhigh hd content)).readOn, ih]
    cases content? gs <;> simp [pair]
  | case6 c hlow hhigh d gs hd =>
    rw [List.flatMap_cons, List.append_assoc,
      (h.reads (TextToken.feedAll_high hlow hhigh content)).readOn]
    refine h.readOn_loneHigh content c.value ?_
    intro c' gs' heq
    cases heq
    exact hd
  | case7 c gs hlow hhigh hgs =>
    rw [List.flatMap_cons, List.append_assoc,
      (h.reads (TextToken.feedAll_high hlow hhigh content)).readOn]
    refine h.readOn_loneHigh content c.value ?_
    intro c' gs' heq
    exact absurd heq (hgs c' gs')
  | case8 c gs hlow hhigh ih =>
    rw [List.flatMap_cons, List.append_assoc,
      (h.reads (TextToken.feedAll_code hlow hhigh content)).readOn, ih]
    cases content? gs <;> simp

theorem quotedBytes_eq (gs : List Glyph) :
    quotedBytes gs = 0x22 :: (gs.flatMap Glyph.bytes ++ [0x22]) := rfl

end Reader

/-! ## Parts of the metric -/

/-- What a part of the metric is. -/
def Field.Content : Field → Type
  | name => String
  | value => Float
  | timestamp => Instant

namespace Draft

def get (d : Draft) : (f : Field) → Option f.Content
  | .name => d.name
  | .value => d.value
  | .timestamp => d.timestamp

def set (d : Draft) : (f : Field) → f.Content → Draft
  | .name, name => { d with name := some name }
  | .value, value => { d with value := some value }
  | .timestamp, timestamp => { d with timestamp := some timestamp }

end Draft

namespace Field

/-- Only a name is a text. -/
def ofText : (f : Field) → String → Except Fault f.Content
  | name, s => if s = "" then .error .emptyName else .ok s
  | value, _ => .error .mistyped
  | timestamp, _ => .error .mistyped

/-- A timestamp is an integer and can be observed. -/
def ofNumber : (f : Field) → Float → Option Int → Except Fault f.Content
  | name, _, _ => .error .mistyped
  | value, x, _ => .ok x
  | timestamp, _, n =>
    match n.bind Instant.ofMillis? with
    | some t => .ok t
    | none => .error .mistyped

/-- What a value is as a part of the metric. -/
def read (f : Field) : Tree .value → Except Fault f.Content
  | .text gs =>
    match text? gs with
    | some s => f.ofText s
    | none => .error .malformed
  | .number n => if n.value.isFinite then f.ofNumber n.value n.integer? else .error .malformed
  | .word _ => .error .mistyped
  | .nested .. => .error .mistyped

end Field

namespace Reader

variable {f : Field} {form : Form}

/-- The reader with what has been read in another phase, if there is no
fault. -/
def behind (phase : Phase) (e : Except Fault Draft) : Except Fault Reader :=
  e.map fun d => ⟨d, phase⟩

theorem settleText_field (phase : Phase) (content : List UInt8) :
    settleText ⟨d, phase⟩ (.field form f) content
      = behind (Slot.field form f).after
        (((TextToken.textOf content).bind f.ofText).map (d.set f)) := by
  show (TextToken.textOf content).bind _ = _
  cases TextToken.textOf content with
  | error fault => rfl
  | ok text =>
    cases f with
    | name =>
      show (if text = "" then _ else _) = behind _ (Except.map _ (if text = "" then _ else _))
      split <;> rfl
    | value => rfl
    | timestamp => rfl

theorem settleNumber_field (phase : Phase) (token : NumberToken) :
    settleNumber ⟨d, phase⟩ (.field form f) token
      = behind (Slot.field form f).after
        ((if token.numeral.scaled.isFinite then f.ofNumber token.numeral.scaled token.integer?
          else .error .malformed).map (d.set f)) := by
  by_cases hfinite : token.numeral.scaled.isFinite
  · rw [if_pos hfinite]
    cases f with
    | name => simp [settleNumber, hfinite, Field.ofNumber, Except.map, behind]
    | value => simp [settleNumber, hfinite, Field.ofNumber, Except.map, behind, Draft.set]
    | timestamp =>
      cases ht : token.integer?.bind Instant.ofMillis? <;>
        simp [settleNumber, hfinite, Field.ofNumber, Except.map, behind, Draft.set, ht]
  · rw [if_neg hfinite]
    simp [settleNumber, hfinite, Except.map, behind]

/-- No number stands behind a value. -/
theorem feed_after (d : Draft) (slot : Slot) (b : UInt8) :
    (⟨d, slot.after⟩ : Reader).feed b = (⟨d, slot.after⟩ : Reader).feedToken slot.after b := by
  rcases slot with _ | ⟨form, f⟩ | within
  · rfl
  · cases form <;> rfl
  · cases within <;> rfl

theorem readOn_word (d : Draft) (slot : Slot) (w : Word) :
    (⟨d, .value slot⟩ : Reader).readOn w.bytes = settleWord ⟨d, .value slot⟩ slot := by
  cases slot <;> cases w <;> rfl

/-- A value in the place of a part of the metric leaves this part behind,
or the fault that it deserves. -/
theorem settles_field (d : Draft) (form : Form) (f : Field) (v : Tree .value) :
    Settles ⟨d, .value (.field form f)⟩ v.bytes
      (behind (Slot.field form f).after ((f.read v).map (d.set f))) := by
  cases v with
  | word w => exact settles_of_readOn (readOn_word d _ w)
  | text gs =>
    refine settles_of_readOn ?_
    have hopen : (⟨d, .value (.field form f)⟩ : Reader).feed 0x22
        = .ok ⟨d, .text (.field form f) (.holding [])⟩ := rfl
    rw [Tree.bytes, quotedBytes_eq, readOn_cons, hopen]
    refine ((hosts_text d (.field form f)).readOn_content gs []).trans ?_
    rw [Field.read, text?]
    cases content? gs with
    | none => rfl
    | some content =>
      simp only [settleText_field, List.append_nil, TextToken.textOf, List.reverse_reverse,
        Option.bind_some]
      cases Utf8.decode? content <;> rfl
  | number n =>
    intro b hb
    obtain ⟨token, hread, hcomplete, hnumeral, hinteger⟩ := NumberToken.exists_token n
    rw [Tree.bytes, (reads_number hread).readOn, readOn_single, feed_behind hcomplete hb,
      settleNumber_field, hnumeral, hinteger]
    show (behind _ ((f.read (.number n)).map _)).bind _ = _
    cases f.read (.number n) with
    | error fault => rfl
    | ok content => exact (feed_after _ (.field form f) b).symm
  | nested bracket body =>
    refine settles_of_readOn ?_
    have hopen : (⟨d, .value (.field form f)⟩ : Reader).feed bracket.opening
        = .error .mistyped := by
      cases bracket <;> rfl
    rw [Tree.bytes, readOn_cons, hopen]
    rfl

/-! ## Skipped values -/

/-- What the bytes of a part do to a reader that skips them. -/
def Skips : Part → List UInt8 → Prop
  | .value, bs => ∀ d within,
    Settles ⟨d, .value (.skipped within)⟩ bs (.ok ⟨d, (Slot.skipped within).after⟩)
  | .body bracket, bs => ∀ d within,
    Reads ⟨d, .skipFirst bracket within⟩ bs ⟨d, (Slot.skipped within).after⟩
  | .rest bracket, bs => ∀ d within,
    Reads ⟨d, .skipAfter bracket within⟩ bs ⟨d, (Slot.skipped within).after⟩

variable {within : List Bracket} {bracket : Bracket}

/-- The phase behind a comma. -/
def afterComma (within : List Bracket) : Bracket → Phase
  | .square => .value (.skipped (.square :: within))
  | .curly => .skipNext within

/-- No value begins like the end of what could hold it. -/
theorem exists_cons_value (v : Tree .value) :
    ∃ b bs, v.bytes = b :: bs ∧ isBlank b = false ∧ b ≠ Bracket.square.closing := by
  cases v with
  | word w => cases w <;> exact ⟨_, _, rfl, rfl, by decide⟩
  | text gs => exact ⟨_, _, rfl, rfl, by decide⟩
  | nested bracket body => cases bracket <;> exact ⟨_, _, rfl, rfl, by decide⟩
  | number n =>
    obtain ⟨token, hread, -⟩ := NumberToken.exists_token n
    rw [Tree.bytes]
    cases hbytes : bytes n.characters with
    | nil =>
      rw [hbytes] at hread
      cases hread
    | cons b bs =>
      rw [hbytes, NumberToken.read?] at hread
      obtain ⟨first, hstart, -⟩ := Option.bind_eq_some_iff.mp hread
      exact ⟨b, bs, rfl, isBlank_of_start? hstart, ne_of_start? hstart (by decide)⟩

theorem exists_cons_rest (t : Tree (.rest bracket)) : ∃ b bs, t.bytes = b :: bs ∧ follows b := by
  have hblanks : ∀ (ws : List Blank) {c : UInt8} (cs : List UInt8), follows c →
      ∃ b bs, blanks ws ++ c :: cs = b :: bs ∧ follows b := by
    intro ws c cs hc
    cases ws with
    | nil => exact ⟨c, cs, rfl, hc⟩
    | cons w ws => exact ⟨w.byte, _, rfl, blank_follows w⟩
  cases t with
  | last ws => exact hblanks ws [] (by cases bracket <;> rfl)
  | next ws ws' label v rest => exact hblanks ws _ rfl

/-- A value followed by its rest. -/
theorem Settles.reads {t : Tree (.rest bracket)} (h : Settles r bs (.ok s))
    (ht : Reads s t.bytes r') : Reads r (bs ++ t.bytes) r' := by
  obtain ⟨b, cs, hbytes, hb⟩ := exists_cons_rest t
  rw [hbytes] at ht ⊢
  exact (h.readOn hb cs).trans ht

/-- A reader that takes the first byte alike takes all alike. -/
theorem Settles.congr (h : Settles s (b :: bs) e) (hb : r.feed b = s.feed b) :
    Settles r (b :: bs) e := by
  intro c hc
  have hs := h c hc
  rw [List.cons_append, readOn_cons] at hs ⊢
  rw [hb]
  exact hs

/-- A value within brackets, behind the key that it may have. -/
theorem settles_labelled {phase : Phase}
    (hphase : phase = .skipFirst bracket within ∨ phase = afterComma within bracket)
    (label : Label bracket) {v : Tree .value} (hv : Skips .value v.bytes) (d : Draft) :
    Settles ⟨d, phase⟩ (label.bytes ++ v.bytes) (.ok ⟨d, .skipAfter bracket within⟩) := by
  cases label with
  | element =>
    have hvalue := hv d (.square :: within)
    rw [Label.bytes, List.nil_append]
    rcases hphase with rfl | rfl
    -- behind the opening bracket the first byte could be the closing one
    · obtain ⟨b, bs, hbytes, hblank, hclosing⟩ := exists_cons_value v
      rw [hbytes] at hvalue ⊢
      refine hvalue.congr ?_
      show feedSkipFirst _ _ _ _ = feedValue _ _ _
      rw [feedSkipFirst, hblank, if_neg Bool.false_ne_true, if_neg hclosing]
      rfl
    · exact hvalue
  | member key before behind =>
    have hopen : (⟨d, phase⟩ : Reader).feed 0x22 = .ok ⟨d, .skipKey (.start false) within⟩ := by
      rcases hphase with rfl | rfl <;> rfl
    have hkey : Reads ⟨d, .skipKey (.start false) within⟩ (key.flatMap Glyph.bytes ++ [0x22])
        ⟨d, .colon (.skipped (.curly :: within))⟩ :=
      (hosts_skipKey d within).readOn_skipped key
    have hcolon : (⟨d, .colon (.skipped (.curly :: within))⟩ : Reader).feed 0x3A
        = .ok ⟨d, .value (.skipped (.curly :: within))⟩ := rfl
    refine Reads.settles_append ?_ (hv d (.curly :: within))
    rw [Label.bytes, quotedBytes_eq]
    exact ((Reads.cons hopen hkey).append (reads_blanks d rfl before)).append
      (.cons hcolon (reads_blanks d rfl behind))

theorem feed_closing_bracket (d : Draft) (bracket : Bracket) (within : List Bracket) {phase : Phase}
    (hphase : phase = .skipFirst bracket within ∨ phase = .skipAfter bracket within) :
    (⟨d, phase⟩ : Reader).feed bracket.closing = .ok ⟨d, (Slot.skipped within).after⟩ := by
  rcases hphase with rfl | rfl <;> cases bracket <;> rfl

/-- Whatever is spelled is skipped to its end and no further. -/
theorem skips {p : Part} (t : Tree p) : Skips p t.bytes := by
  -- bodies and rests end with their bracket; only a value needs the byte behind it
  induction t with
  | word w =>
    intro d within
    exact settles_of_readOn (readOn_word d _ w)
  | number n =>
    intro d within b hb
    obtain ⟨token, hread, hcomplete, -⟩ := NumberToken.exists_token n
    rw [Tree.bytes, (reads_number hread).readOn, readOn_single, feed_behind hcomplete hb]
    exact (feed_after d (.skipped within) b).symm
  | text gs =>
    intro d within
    refine settles_of_readOn ?_
    have hopen : (⟨d, .value (.skipped within)⟩ : Reader).feed 0x22
        = .ok ⟨d, .text (.skipped within) (.start false)⟩ := rfl
    rw [Tree.bytes, quotedBytes_eq, readOn_cons, hopen]
    exact (hosts_text d (.skipped within)).readOn_skipped gs
  | nested bracket body ih =>
    intro d within
    have hopen : (⟨d, .value (.skipped within)⟩ : Reader).feed bracket.opening
        = .ok ⟨d, .skipFirst bracket within⟩ := by
      cases bracket <;> rfl
    exact (Reads.cons hopen (ih d within)).settles
  | @empty bracket ws =>
    intro d within
    exact (reads_blanks d rfl ws).append
      (.single (feed_closing_bracket d bracket within (Or.inl rfl)))
  | first ws label v rest ihv ihrest =>
    intro d within
    have hvalue := settles_labelled (Or.inl (Eq.refl (Phase.skipFirst _ within))) label ihv d
    exact (reads_blanks d rfl ws).append (hvalue.reads (ihrest d within))
  | @last bracket ws =>
    intro d within
    exact (reads_blanks d rfl ws).append
      (.single (feed_closing_bracket d bracket within (Or.inr rfl)))
  | @next bracket ws ws' label v rest ihv ihrest =>
    intro d within
    have hcomma : (⟨d, .skipAfter bracket within⟩ : Reader).feed 0x2C
        = .ok ⟨d, afterComma within bracket⟩ := by
      cases bracket <;> rfl
    have hidle : idle (afterComma within bracket) := by cases bracket <;> rfl
    have hvalue := settles_labelled (Or.inr (Eq.refl (afterComma within _))) label ihv d
    exact (reads_blanks d rfl ws).append
      (.cons hcomma ((reads_blanks d hidle ws').append (hvalue.reads (ihrest d within))))

end Reader

end MetricRelay.Wire
