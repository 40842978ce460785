import MetricRelay.Proofs.Wire.Objects

/-!
# Arrays and objects decode alike

A payload is an array of values or an object that has them under the keys
of the metric, in the same order. For an object it is known that decoding
takes its members one after the other (`decode_bytes`); here the same is
shown of the elements of an array, each of which is the part of the metric
that its place says (`decode_array`). A key leads to the same slot as a
place does, and no part is given twice, so the first value that is unfit
is the same one in both forms, and what is missing at the closing bracket
is the same too (`forms_decode_alike`).
-/

namespace MetricRelay.Wire

/-- A value as it is written, with the blanks around it. -/
structure Spelling where
  before : List Blank
  value : Tree .value
  behind : List Blank

def Spelling.bytes (v : Spelling) : List UInt8 :=
  blanks v.before ++ (v.value.bytes ++ blanks v.behind)

def separated : List (List UInt8) → List UInt8
  | [] => []
  | t :: ts => t ++ ts.flatMap (0x2C :: ·)

/-- The payload that has the values in its places. -/
def arrayOf (vs : List Spelling) : List UInt8 :=
  0x5B :: (separated (vs.map Spelling.bytes) ++ [0x5D])

/-- The payload that has the values under its keys, in the order of the
places. -/
def objectOf (vs : List Spelling) : List UInt8 :=
  let member (f : Field) (v : Spelling) := bytes (Text.quoted f.key) ++ 0x3A :: v.bytes
  0x7B :: (separated (List.zipWith member [.name, .value, .timestamp] vs) ++ [0x7D])

/-- The values are taken for the parts of the metric from one part on. -/
def Draft.takeElements : Option Field → Draft → List Spelling → Except Fault Draft
  | _, d, [] => .ok d
  | none, _, _ :: _ => .error .malformed
  | some f, d, v :: vs => ((f.read v.value).map (d.set f)).bind (takeElements f.following? · vs)

namespace Reader

variable {f : Field} {phase : Phase}

/-! ## Elements -/

/-- An element and the blanks around it. Behind the opening bracket of the
array its first byte could be the closing one. -/
theorem settles_element (hphase : phase = .value (.field .array f)
    ∨ phase = .firstElement ∧ f = .name) (d : Draft) (v : Spelling) :
    Settles ⟨d, phase⟩ v.bytes (behind (.afterElement f) ((f.read v.value).map (d.set f))) := by
  have hidle : idle phase := by rcases hphase with rfl | ⟨rfl, -⟩ <;> rfl
  have hvalue : Settles ⟨d, phase⟩ v.value.bytes
      (behind (.afterElement f) ((f.read v.value).map (d.set f))) := by
    have hfield := settles_field d .array f v.value
    rcases hphase with rfl | ⟨rfl, rfl⟩
    · exact hfield
    · obtain ⟨b, bs, hbytes, hblank, hclosing⟩ := exists_cons_value v.value
      rw [hbytes] at hfield ⊢
      refine hfield.congr ?_
      have hne : b ≠ 0x5D := hclosing
      simp [feed, feedToken, hblank, hne]
      rfl
  exact (reads_blanks d hidle v.before).settles_append (hvalue.append_blanks rfl v.behind)

theorem finish_square (now : Instant) (d : Draft) (hphase : phase = .firstElement
    ∨ phase = .afterElement f) :
    ((⟨d, phase⟩ : Reader).readOn [0x5D]).bind (fun r => r.finish now) = d.metric now := by
  have hclose : (⟨d, phase⟩ : Reader).feed 0x5D = (⟨d, .afterMember⟩ : Reader).feed 0x7D := by
    rcases hphase with rfl | rfl <;> rfl
  have hcurly := finish_closing now d (Or.inr rfl) []
  rw [blanks, List.map_nil, readOn_single] at hcurly
  rw [readOn_single, hclose, hcurly]

def behindElement (vs : List Spelling) : List UInt8 :=
  (vs.map Spelling.bytes).flatMap (0x2C :: ·) ++ [0x5D]

theorem behindElement_cons (v : Spelling) (vs : List Spelling) :
    behindElement (v :: vs) = 0x2C :: (v.bytes ++ behindElement vs) := by
  simp [behindElement]

theorem exists_cons_behindElement (vs : List Spelling) :
    ∃ b bs, behindElement vs = b :: bs ∧ follows b := by
  cases vs with
  | nil => exact ⟨_, _, rfl, rfl⟩
  | cons v vs => exact ⟨_, _, behindElement_cons v vs, rfl⟩

theorem readOn_element (hphase : phase = .value (.field .array f)
    ∨ phase = .firstElement ∧ f = .name) (d : Draft) (v : Spelling) (vs : List Spelling) :
    (⟨d, phase⟩ : Reader).readOn (v.bytes ++ behindElement vs)
      = ((f.read v.value).map (d.set f)).bind fun d =>
        (⟨d, .afterElement f⟩ : Reader).readOn (behindElement vs) := by
  obtain ⟨b, bs, hbytes, hb⟩ := exists_cons_behindElement vs
  rw [hbytes, (settles_element hphase d v).readOn hb bs]
  cases (f.read v.value).map (d.set f) <;> rfl

theorem finish_elements (now : Instant) (d : Draft) (f : Field) (vs : List Spelling) :
    ((⟨d, .afterElement f⟩ : Reader).readOn (behindElement vs)).bind (fun r => r.finish now)
      = (d.takeElements f.following? vs).bind fun d => d.metric now := by
  induction vs generalizing d f with
  | nil => exact finish_square now d (Or.inr rfl)
  | cons v vs ih =>
    rw [behindElement_cons, readOn_cons]
    cases hnext : f.following? with
    | none =>
      -- one value too many is a fault at its comma, whatever the value is
      have hcomma : (⟨d, .afterElement f⟩ : Reader).feed 0x2C = .error .malformed := by
        cases f <;> first | rfl | cases hnext
      rw [hcomma]
      rfl
    | some g =>
      have hcomma : (⟨d, .afterElement f⟩ : Reader).feed 0x2C
          = .ok ⟨d, .value (.field .array g)⟩ := by
        cases f <;> cases hnext <;> rfl
      rw [hcomma, Draft.takeElements]
      show (Reader.readOn _ _).bind _ = _
      rw [readOn_element (Or.inl rfl)]
      cases (g.read v.value).map (d.set g) with
      | error fault => rfl
      | ok d => exact ih d g

end Reader

open Reader

/-- Decoding an array takes its elements one after the other. -/
theorem decode_array (now : Instant) (vs : List Spelling) :
    decode now (arrayOf vs)
      = (Draft.blank.takeElements (some .name) vs).bind fun d => d.metric now := by
  have hopen : Reader.start.feed 0x5B = .ok ⟨.blank, .firstElement⟩ := rfl
  have hread : decode now (arrayOf vs)
      = ((⟨.blank, .firstElement⟩ : Reader).readOn (separated (vs.map Spelling.bytes)
        ++ [0x5D])).bind fun r => r.finish now := by
    show (Reader.start.readOn (arrayOf vs)).bind _ = _
    rw [arrayOf, readOn_cons, hopen]
    rfl
  rw [hread]
  cases vs with
  | nil => exact finish_square (f := .name) now .blank (Or.inl rfl)
  | cons v vs =>
    rw [List.map_cons, separated, List.append_assoc]
    show (Reader.readOn _ (v.bytes ++ behindElement vs)).bind _ = _
    rw [readOn_element (Or.inr ⟨rfl, rfl⟩), Draft.takeElements]
    cases (Field.name.read v.value).map (Draft.blank.set .name) with
    | error fault => rfl
    | ok d => exact finish_elements now d .name vs

/-! ## Members in the order of the places -/

theorem plain_key (f : Field) : ∀ b ∈ Utf8.encode f.key, 0x20 ≤ b ∧ b ≠ 0x22 ∧ b ≠ 0x5C := by
  cases f <;> decide +kernel

/-- The member that has a value under the key of a part. -/
def Field.member (f : Field) (v : Spelling) : Member where
  key := (Utf8.encode f.key).attach.map fun b => .plain b.1 (plain_key f b.1 b.2)
  name := f.key
  named := by cases f <;> exact text?_of_content? rfl
  value := v.value
  before := []
  beforeColon := []
  behindColon := v.before
  behind := v.behind

theorem bytes_member (f : Field) (v : Spelling) :
    (f.member v).bytes = bytes (Text.quoted f.key) ++ 0x3A :: v.bytes := by
  cases f <;> rfl

theorem takeMember_member {d : Draft} {f : Field} (hd : d.has f = false) (v : Spelling) :
    d.takeMember (f.member v) = (f.read v.value).map (d.set f) := by
  have hkey : Field.ofKey? (f.member v).name = some f := Field.ofKey?_eq_some_iff.mpr rfl
  simp only [Draft.takeMember, hkey, hd]
  rfl

theorem takeMember_bind {d : Draft} {f : Field} (hd : d.has f = false) (v : Spelling)
    {k k' : Draft → Except Fault Draft} (h : ∀ c, k (d.set f c) = k' (d.set f c)) :
    (d.takeMember (f.member v)).bind k = ((f.read v.value).map (d.set f)).bind k' := by
  rw [takeMember_member hd]
  cases f.read v.value with
  | error fault => rfl
  | ok c => exact h c

theorem foldlM_member {vs : List Spelling} (h : vs.length ≤ 3) :
    (List.zipWith Field.member [.name, .value, .timestamp] vs).foldlM Draft.takeMember .blank
      = Draft.blank.takeElements (some .name) vs := by
  rcases vs with _ | ⟨a, _ | ⟨b, _ | ⟨c, _ | ⟨e, vs⟩⟩⟩⟩
  · rfl
  · exact takeMember_bind rfl a fun _ => rfl
  · refine takeMember_bind rfl a fun _ => ?_
    exact takeMember_bind rfl b fun _ => rfl
  · refine takeMember_bind rfl a fun _ => takeMember_bind rfl b fun _ => ?_
    exact takeMember_bind rfl c fun _ => rfl
  · exact absurd h (by simp)

theorem bytes_members (ms : List Member) :
    (⟨ms, [], [], []⟩ : Object).bytes = 0x7B :: (separated (ms.map Member.bytes) ++ [0x7D]) := by
  cases ms with
  | nil => rfl
  | cons m ms => simp [Object.bytes, Object.inner, separated, blanks, List.flatMap_map]

/-- Decoding an object takes the values of its members one after the
other. -/
theorem decode_objectOf (now : Instant) {vs : List Spelling} (h : vs.length ≤ 3) :
    decode now (objectOf vs)
      = (Draft.blank.takeElements (some .name) vs).bind fun d => d.metric now := by
  have hbytes : objectOf vs
      = (⟨List.zipWith Field.member [.name, .value, .timestamp] vs, [], [], []⟩ : Object).bytes := by
    rw [bytes_members, List.map_zipWith]
    simp only [objectOf, bytes_member]
  rw [hbytes, decode_bytes, foldlM_member h]

/-! ## Both forms -/

/-- The metric that values are in this order: they must fit, from the first
on, and there must be a name and a value. -/
def metricOf (now : Instant) : List Spelling → Except Fault Metric
  | [] => .error .mistyped
  | [a] => do
    let _ ← Field.name.read a.value
    .error .mistyped
  | [a, b] => do
    let name ← Field.name.read a.value
    let value ← Field.value.read b.value
    .ok ⟨name, value, now⟩
  | a :: b :: c :: _ => do
    let name ← Field.name.read a.value
    let value ← Field.value.read b.value
    let observed ← Field.timestamp.read c.value
    .ok ⟨name, value, observed⟩

/-- An array and the object that has the same values under the keys of the
metric in the order of their places decode to the same metric or have the
same fault, that of the first value that does not fit. -/
theorem forms_decode_alike (now : Instant) (vs : List Spelling) (h : vs.length ≤ 3) :
    decode now (arrayOf vs) = decode now (objectOf vs)
      ∧ decode now (objectOf vs) = metricOf now vs := by
  refine ⟨(decode_array now vs).trans (decode_objectOf now h).symm, ?_⟩
  rw [decode_objectOf now h]
  rcases vs with _ | ⟨a, _ | ⟨b, _ | ⟨c, _ | ⟨e, vs⟩⟩⟩⟩
  · rfl
  · simp only [Draft.takeElements, metricOf]
    cases Field.name.read a.value <;> rfl
  · simp only [Draft.takeElements, Field.following?, metricOf]
    cases Field.name.read a.value with
    | error fault => rfl
    | ok name => cases Field.value.read b.value <;> rfl
  · simp only [Draft.takeElements, Field.following?, metricOf]
    cases Field.name.read a.value with
    | error fault => rfl
    | ok name =>
      cases Field.value.read b.value with
      | error fault => rfl
      | ok value => cases Field.timestamp.read c.value <;> rfl
  · exact absurd h (by simp)

/-- Without a timestamp the metric is observed now; half a surrogate pair is
the fault before a value of the wrong type, and that before what follows. -/
theorem forms_decode_alike_of_surrogate_half :
    let name : Spelling := ⟨[], .text [.plain 0x61 (by decide), .escape .slash], [.space]⟩
    let half : Spelling := ⟨[.tab], .text [.code ⟨⟨13, true⟩, ⟨8, true⟩, ⟨0, true⟩, ⟨0, true⟩⟩], []⟩
    let number : Spelling := ⟨[], .number ⟨true, ['2'], ['5'], none,
      List.forall_mem_singleton.mpr rfl, Or.inr ⟨'2', [], rfl, by decide⟩,
      List.forall_mem_singleton.mpr rfl⟩, []⟩
    let nested : Spelling := ⟨[], .nested .curly (.empty [.lineFeed]), []⟩
    decode ⟨7⟩ (arrayOf [name, number]) = .ok ⟨"a/", -2.5, ⟨7⟩⟩
      ∧ decode ⟨7⟩ (objectOf [name, number]) = .ok ⟨"a/", -2.5, ⟨7⟩⟩
      ∧ decode ⟨7⟩ (arrayOf [half, nested]) = .error .malformed
      ∧ decode ⟨7⟩ (objectOf [half, nested]) = .error .malformed
      ∧ decode ⟨7⟩ (arrayOf [name, nested, half]) = .error .mistyped
      ∧ decode ⟨7⟩ (objectOf [name, nested, half]) = .error .mistyped := by
  intro name half number nested
  obtain ⟨hsame, hobject⟩ := forms_decode_alike ⟨7⟩ [name, number] (by decide)
  obtain ⟨hsame', hobject'⟩ := forms_decode_alike ⟨7⟩ [half, nested] (by decide)
  obtain ⟨hsame'', hobject''⟩ := forms_decode_alike ⟨7⟩ [name, nested, half] (by decide)
  have hok : metricOf ⟨7⟩ [name, number] = .ok ⟨"a/", -2.5, ⟨7⟩⟩ := by decide +kernel
  have hhalf : metricOf ⟨7⟩ [half, nested] = .error .malformed := by decide +kernel
  have hnested : metricOf ⟨7⟩ [name, nested, half] = .error .mistyped := by decide +kernel
  rw [hsame, hobject, hsame', hobject', hsame'', hobject'']
  exact ⟨hok, hok, hhalf, hhalf, hnested, hnested⟩

end MetricRelay.Wire
