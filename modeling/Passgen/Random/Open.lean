import Mathlib.Data.List.Basic
import Mathlib.Data.List.TakeWhile
import Mathlib.Data.Vector.Basic
import Mathlib.Tactic.Common
import Passgen.Effect.Traced
import Passgen.Parser.Run
import Passgen.Wordlist.Wordlist

/-!
# Random/Open — randomness descriptors

    chacha20-argon2 : master_pass : domain : token
                    └ skip one ':' if there is one, copy up to the next ':', three times

Where the passphrase is empty, the colon behind it is skipped as if it were the one in front of the
passphrase, and the other two fields move up.  The copy of the iv is cut to its eight bytes; those
of the key, the passphrase, the domain and the token are as long as the descriptor has them.
-/

namespace Passgen

open Effect (Traced)

abbrev colon : UInt8 := 58

/-- The arrays that `passgen_random_open_parse` copies into. -/
inductive Buffer where
  | key
  | iv
  | masterPass
  | domain
  | token
  deriving DecidableEq, Repr

/-- How much of an array a copy may fill: all of it, but for the terminator of a string. -/
def Buffer.room : Buffer → ℕ
  | key => 32
  | iv => 8
  | masterPass | domain | token => 127

/-- A `memcpy`: into which array, and what. -/
structure Copy where
  buffer : Buffer
  bytes : List UInt8

/-- A copy that leaves its array alone behind the end. -/
def Copy.Fits (copy : Copy) : Prop := copy.bytes.length ≤ copy.buffer.room

/-- The functions that open a source, with what they are given. -/
inductive RandomOpen where
  | zero
  | path (path : List UInt8)
  | xorshift (seed : BitVec 64)
  | system
  | chacha20 (key : Vector UInt8 32) (iv : Vector UInt8 8)
  | chacha20Argon2 (passphrase domain token : List UInt8)

/-! ## The parser -/

/-- `_strprefix`. -/
def strprefixOf (text string : List UInt8) : Bool := text.isPrefixOf string

/-- `isspace`. -/
def isSpace (c : UInt8) : Bool := c = 32 || 9 ≤ c && c ≤ 13

/-- `atoll`, which saturates. -/
def atoll (string : List UInt8) : ℤ :=
  let string := string.dropWhile isSpace
  let digits := if string.head? = some 45 ∨ string.head? = some 43 then string.tail else string
  let value := (digits.takeWhile fun c => 48 ≤ c && c ≤ 57).foldl
    (fun (value : ℤ) c => 10 * value + (c.toNat - 48)) 0
  max (-2 ^ 63) (min (2 ^ 63 - 1) (if string.head? = some 45 then -value else value))

/-- `memcpy` to the front of an array; behind its end there is no telling what happens. -/
def copyTo {n : ℕ} (buffer : Buffer) (array : Vector UInt8 n) (bytes : List UInt8) :
    Traced Copy (Vector UInt8 n) := do
  Traced.emit ⟨buffer, bytes⟩
  if bytes.length ≤ n then pure (.ofFn fun i => bytes.getD i array[i]) else Traced.stuck

/-- The string in an array.  `strlen` finds no end of one without a terminator. -/
def stringIn {n : ℕ} (array : Vector UInt8 n) : Traced Copy (List UInt8) :=
  if 0 ∈ array.toList then pure (cString array.toList) else Traced.stuck

/-- `if(*end == ':') end++`. -/
def skipColon (cursor : List UInt8) : List UInt8 :=
  if cursor.head? = some colon then cursor.tail else cursor

/-- `PARSE_STRING`: the array it fills, and where it leaves `end`. -/
def parseString (name : Buffer) (cursor : List UInt8) :
    Traced Copy (Vector UInt8 128 × List UInt8) := do
  let array := .replicate 128 0
  let cursor := skipColon cursor
  if cursor ≠ [] then
    let array ← copyTo name array (cursor.takeWhile (· ≠ colon))
    pure (array, cursor.dropWhile (· ≠ colon))
  else pure (array, cursor)

/-- The `chacha20` branch, behind its keyword. -/
def parseChacha20 (desc : List UInt8) : Traced Copy RandomOpen := do
  let key ← copyTo .key (.replicate 32 0) (desc.takeWhile (· ≠ colon))
  let keyEnd := desc.dropWhile (· ≠ colon)
  let iv ← (
    if keyEnd.head? = some colon then
      copyTo .iv (.replicate 8 0) (keyEnd.tail.take 8)
    else pure ⟨(ascii "passgen\x00").toArray, rfl⟩)
  pure (.chacha20 key iv)

/-- The `chacha20-argon2` branch, behind its keyword. -/
def parseChacha20Argon2 (desc : List UInt8) : Traced Copy RandomOpen := do
  let (masterPass, cursor) ← parseString .masterPass desc
  let (domain, cursor) ← parseString .domain cursor
  let (token, _) ← parseString .token cursor
  pure (.chacha20Argon2 (← stringIn masterPass) (← stringIn domain) (← stringIn token))

/-- `passgen_random_open_parse`, up to the function that opens the source. -/
def randomOpenParse (desc : List UInt8) : Traced Copy (Option RandomOpen) := do
  let desc := cString desc
  if ascii "zero" = desc then pure (some .zero)
  else if strprefixOf (ascii "file:") desc then pure (some (.path (desc.drop 5)))
  else if strprefixOf (ascii "xorshift:") desc then
    let seed := BitVec.ofInt 64 (atoll (desc.drop 9))
    if desc.drop 9 = [] ∨ seed = 0 then pure none else pure (some (.xorshift seed))
  else if desc = ascii "system" then pure (some .system)
  else if strprefixOf (ascii "chacha20:") desc then some <$> parseChacha20 (desc.drop 9)
  else if strprefixOf (ascii "chacha20-argon2:") desc then
    some <$> parseChacha20Argon2 (desc.drop 16)
  else pure none

/-! ## Copies -/

section Copies

variable {n : ℕ} {buffer : Buffer} {bytes cursor : List UInt8}

/-- The array of zeroes with a string at its front. -/
def zeroPadded (n : ℕ) (bytes : List UInt8) : Vector UInt8 n := .ofFn fun i => bytes.getD i 0

theorem getElem_zeroPadded {i : ℕ} (hi : i < n) : (zeroPadded n bytes)[i] = bytes.getD i 0 :=
  Vector.getElem_ofFn hi

theorem zeroPadded_nil : zeroPadded n [] = .replicate n 0 := by
  ext i hi
  rw [getElem_zeroPadded, Vector.getElem_replicate, List.getD_nil]

theorem toList_zeroPadded (h : bytes.length ≤ n) :
    (zeroPadded n bytes).toList = bytes ++ List.replicate (n - bytes.length) 0 := by
  refine List.ext_getElem ?_ fun i hi _ => ?_
  · rw [Vector.length_toList, List.length_append, List.length_replicate, Nat.add_sub_cancel' h]
  · rw [Vector.getElem_toList, getElem_zeroPadded, List.getElem_append]
    split
    · exact List.getD_eq_getElem _ _ ‹_›
    · rw [List.getElem_replicate, List.getD_eq_default _ _ (Nat.le_of_not_lt ‹_›)]

theorem answer_copyTo (h : bytes.length ≤ n) :
    (copyTo buffer (.replicate n 0) bytes).answer = some (zeroPadded n bytes) := by
  rw [copyTo, Traced.answer_bind, Traced.answer_emit, Option.bind_some, if_pos h,
    Traced.answer_pure]
  refine congrArg (fun f => some (Vector.ofFn f)) (funext fun i => ?_)
  rw [Fin.getElem_fin, Vector.getElem_replicate]

theorem all_copyTo_iff {p : Copy → Prop} {array : Vector UInt8 n} :
    (copyTo buffer array bytes).All p ↔ p ⟨buffer, bytes⟩ := by
  rw [copyTo, Traced.all_bind_iff, Traced.all_emit_iff]
  refine and_iff_left fun _ _ => ?_
  split
  · exact Traced.all_pure _
  · exact Traced.all_stuck

/-- **A padded string** is read back, if there is room for its terminator. -/
theorem answer_stringIn (hzero : 0 ∉ bytes) (hlength : bytes.length < n) :
    (stringIn (zeroPadded n bytes)).answer = some bytes := by
  have hpos : n - bytes.length ≠ 0 := Nat.sub_ne_zero_of_lt hlength
  have hlist := toList_zeroPadded hlength.le
  have hmem : 0 ∈ (zeroPadded n bytes).toList := by
    rw [hlist]
    exact List.mem_append_right _ (List.mem_replicate.mpr ⟨hpos, rfl⟩)
  have hbytes : ∀ c ∈ bytes, decide (c ≠ 0) = true := fun c hc =>
    decide_eq_true fun hc0 => hzero (hc0 ▸ hc)
  rw [stringIn, if_pos hmem, Traced.answer_pure, hlist, cString,
    List.takeWhile_append_of_pos hbytes, List.takeWhile_replicate]
  simp

/-- The field that `PARSE_STRING` copies. -/
def field (cursor : List UInt8) : List UInt8 := (skipColon cursor).takeWhile (· ≠ colon)

/-- Where it leaves `end`. -/
def behind (cursor : List UInt8) : List UInt8 := (skipColon cursor).dropWhile (· ≠ colon)

theorem answer_parseString (h : (field cursor).length ≤ 128) :
    (parseString buffer cursor).answer = some (zeroPadded 128 (field cursor), behind cursor) := by
  rw [parseString]
  split
  · rw [Traced.answer_bind, ← field, answer_copyTo h]
    rfl
  · rename_i hnil
    rw [not_not] at hnil
    rw [field, behind, hnil, List.takeWhile_nil, List.dropWhile_nil, zeroPadded_nil]
    rfl

theorem all_parseString_iff : (parseString buffer cursor).All Copy.Fits ↔
    (field cursor).length ≤ buffer.room := by
  rw [parseString]
  split
  · rw [Traced.all_bind_iff, all_copyTo_iff]
    exact and_iff_left fun _ _ => Traced.all_pure _
  · rename_i hnil
    rw [not_not] at hnil
    rw [field, hnil]
    exact iff_of_true (Traced.all_pure _) (Nat.zero_le _)

theorem all_stringIn {p : Copy → Prop} (array : Vector UInt8 n) : (stringIn array).All p := by
  rw [stringIn]
  split
  · exact Traced.all_pure _
  · exact Traced.all_stuck

/-- **The copies of the `chacha20` branch.** -/
theorem all_parseChacha20_iff {rest : List UInt8} :
    (parseChacha20 rest).All Copy.Fits ↔ (rest.takeWhile (· ≠ colon)).length ≤ 32 := by
  rw [parseChacha20, Traced.all_bind_iff, all_copyTo_iff]
  refine and_iff_left fun key _ => Traced.All.bind ?_ fun iv _ => Traced.all_pure _
  split
  · exact all_copyTo_iff.mpr (List.length_take_le 8 _)
  · exact Traced.all_pure _

/-- **The copies of the `chacha20-argon2` branch.** -/
theorem all_parseChacha20Argon2_iff : (parseChacha20Argon2 cursor).All Copy.Fits ↔
    (field cursor).length ≤ 127 ∧ (field (behind cursor)).length ≤ 127 ∧
      (field (behind (behind cursor))).length ≤ 127 := by
  constructor
  · intro h
    obtain ⟨hpass, h⟩ := Traced.all_bind_iff.mp h
    have hpass : (field cursor).length ≤ 127 := all_parseString_iff.mp hpass
    have h := h _ (answer_parseString (Nat.le_succ_of_le hpass))
    obtain ⟨hdomain, h⟩ := Traced.all_bind_iff.mp h
    have hdomain : (field (behind cursor)).length ≤ 127 := all_parseString_iff.mp hdomain
    have h := h _ (answer_parseString (Nat.le_succ_of_le hdomain))
    obtain ⟨htoken, -⟩ := Traced.all_bind_iff.mp h
    exact ⟨hpass, hdomain, all_parseString_iff.mp htoken⟩
  · rintro ⟨hpass, hdomain, htoken⟩
    refine (all_parseString_iff.mpr hpass).bind_of_answer
      (answer_parseString (Nat.le_succ_of_le hpass)) ?_
    refine (all_parseString_iff.mpr hdomain).bind_of_answer
      (answer_parseString (Nat.le_succ_of_le hdomain)) ?_
    refine (all_parseString_iff.mpr htoken).bind fun token _ => ?_
    exact (all_stringIn _).bind fun _ _ => (all_stringIn _).bind fun _ _ =>
      (all_stringIn _).bind fun _ _ => Traced.all_pure _

/-- **What the `chacha20-argon2` branch opens.** -/
theorem answer_parseChacha20Argon2 {passphrase domain token : List UInt8}
    (hpass : field cursor = passphrase) (hdomain : field (behind cursor) = domain)
    (htoken : field (behind (behind cursor)) = token)
    (hzero : 0 ∉ passphrase ∧ 0 ∉ domain ∧ 0 ∉ token)
    (hlength : passphrase.length ≤ 127 ∧ domain.length ≤ 127 ∧ token.length ≤ 127) :
    (parseChacha20Argon2 cursor).answer = some (.chacha20Argon2 passphrase domain token) := by
  subst hpass hdomain htoken
  rw [parseChacha20Argon2, Traced.answer_bind, answer_parseString (Nat.le_succ_of_le hlength.1),
    Option.bind_some, Traced.answer_bind, answer_parseString (Nat.le_succ_of_le hlength.2.1),
    Option.bind_some, Traced.answer_bind, answer_parseString (Nat.le_succ_of_le hlength.2.2),
    Option.bind_some, Traced.answer_bind, answer_stringIn hzero.1 (Nat.lt_succ_of_le hlength.1),
    Option.bind_some, Traced.answer_bind, answer_stringIn hzero.2.1 (Nat.lt_succ_of_le hlength.2.1),
    Option.bind_some, Traced.answer_bind, answer_stringIn hzero.2.2 (Nat.lt_succ_of_le hlength.2.2),
    Option.bind_some, Traced.answer_pure]

end Copies

/-! ## Branches -/

section Branches

variable {desc rest : List UInt8}

theorem randomOpenParse_chacha20 (h : cString desc = ascii "chacha20:" ++ rest) :
    randomOpenParse desc = some <$> parseChacha20 rest := by
  rw [randomOpenParse, h]
  rfl

theorem randomOpenParse_chacha20Argon2 (h : cString desc = ascii "chacha20-argon2:" ++ rest) :
    randomOpenParse desc = some <$> parseChacha20Argon2 rest := by
  rw [randomOpenParse, h]
  rfl

/-- **The fields of a descriptor fit** into the arrays they are copied to: the key, or the first
three fields behind `chacha20-argon2:` and one more colon. -/
structure DescriptorFits (desc : List UInt8) : Prop where
  chacha20 : ∀ rest, cString desc = ascii "chacha20:" ++ rest →
    (rest.takeWhile (· ≠ colon)).length ≤ 32
  chacha20Argon2 : ∀ rest, cString desc = ascii "chacha20-argon2:" ++ rest →
    ∀ text ∈ ((skipColon rest).splitOn colon).take 3, text.length ≤ 127

/-- The fields, one at a time. -/
theorem forall_take_splitOn_iff {p : List UInt8 → Prop} (hnil : p []) (cursor : List UInt8)
    (k : ℕ) : (∀ text ∈ ((skipColon cursor).splitOn colon).take (k + 1), p text) ↔
      p (field cursor) ∧
        ∀ text ∈ ((skipColon (behind cursor)).splitOn colon).take k, p text := by
  have hsplit : field cursor ++ behind cursor = skipColon cursor := List.takeWhile_append_dropWhile
  have hfield : colon ∉ field cursor := fun h => by simpa using List.mem_takeWhile_imp h
  cases hbehind : behind cursor with
  | nil =>
    rw [hbehind, List.append_nil] at hsplit
    rw [← hsplit, List.splitOn_eq_singleton hfield, List.take_succ_cons, List.forall_mem_cons]
    refine and_congr_right fun _ => iff_of_true (fun _ h => absurd h (by simp)) fun text h => ?_
    rw [List.mem_singleton.mp (List.mem_of_mem_take h)]
    exact hnil
  | cons c rest =>
    have hc : c = colon := by
      have hne : (skipColon cursor).dropWhile (· ≠ colon) ≠ [] :=
        fun h => absurd (hbehind.symm.trans h) (by simp)
      have hhead := List.head_dropWhile_not (fun c => decide (c ≠ colon)) hne
      rw [behind] at hbehind
      simp only [hbehind, List.head_cons, decide_eq_false_iff_not, not_not] at hhead
      exact hhead
    rw [hbehind, hc] at hsplit
    have hskip : skipColon (c :: rest) = rest := by rw [hc]; rfl
    rw [← hsplit, List.splitOn_append_cons_self_of_not_mem hfield, List.take_succ_cons,
      List.forall_mem_cons, hskip]

/-- **The copies of a descriptor** fit when its fields do. -/
theorem all_randomOpenParse_iff : (randomOpenParse desc).All Copy.Fits ↔ DescriptorFits desc := by
  by_cases hchacha : ascii "chacha20:" <+: cString desc
  · obtain ⟨rest, hrest⟩ := hchacha
    rw [randomOpenParse_chacha20 hrest.symm, Traced.all_map_iff, all_parseChacha20_iff]
    constructor
    · intro h
      refine ⟨fun rest' h' => ?_, fun rest' h' => ?_⟩
      · rwa [← List.append_cancel_left (hrest.trans h')]
      · exact absurd (hrest.trans h') (by simp [ascii])
    · exact fun h => h.chacha20 rest hrest.symm
  by_cases hargon : ascii "chacha20-argon2:" <+: cString desc
  · obtain ⟨rest, hrest⟩ := hargon
    rw [randomOpenParse_chacha20Argon2 hrest.symm, Traced.all_map_iff, all_parseChacha20Argon2_iff]
    have hfields := fun k cursor => @forall_take_splitOn_iff (fun text => text.length ≤ 127)
      (Nat.zero_le _) cursor k
    have hall : (∀ text ∈ ((skipColon rest).splitOn colon).take 3, text.length ≤ 127) ↔
        (field rest).length ≤ 127 ∧ (field (behind rest)).length ≤ 127 ∧
          (field (behind (behind rest))).length ≤ 127 := by
      rw [hfields, hfields, hfields, List.take_zero]
      simp
    rw [← hall]
    constructor
    · intro h
      refine ⟨fun rest' h' => absurd (hrest.trans h') (by simp [ascii]), fun rest' h' => ?_⟩
      rwa [← List.append_cancel_left (hrest.trans h')]
    · exact fun h => h.chacha20Argon2 rest hrest.symm
  · refine iff_of_true ?_ ⟨fun rest h => absurd ⟨rest, h.symm⟩ hchacha,
      fun rest h => absurd ⟨rest, h.symm⟩ hargon⟩
    rw [← List.isPrefixOf_iff_prefix] at hchacha hargon
    simp only [randomOpenParse, strprefixOf, hchacha, hargon, Bool.false_eq_true, if_false]
    split_ifs <;> exact Traced.all_pure _

end Branches

/-! ## Fields -/

/-- A field as a descriptor can have it: without terminator and colon, and not too long. -/
structure Field where
  text : List UInt8
  zero_notMem : 0 ∉ text
  colon_notMem : colon ∉ text
  length_le : text.length ≤ 127

/-- The descriptor `chacha20-argon2:m:d:t`. -/
def argon2Descriptor (m d t : Field) : List UInt8 :=
  ascii "chacha20-argon2:" ++ (m.text ++ colon :: (d.text ++ colon :: t.text))

section Fields

variable {m d t : Field} {rest : List UInt8}

theorem Field.ne_colon (m : Field) : ∀ c ∈ m.text, decide (c ≠ colon) = true :=
  fun _ hc => decide_eq_true fun h => m.colon_notMem (h ▸ hc)

theorem Field.field_last (m : Field) : field (colon :: m.text) = m.text :=
  List.takeWhile_eq_self_iff.mpr m.ne_colon

theorem Field.behind_last (m : Field) : behind (colon :: m.text) = [] :=
  List.dropWhile_eq_nil_iff.mpr m.ne_colon

theorem Field.takeWhile_append (m : Field) (rest : List UInt8) :
    (m.text ++ colon :: rest).takeWhile (· ≠ colon) = m.text := by
  rw [List.takeWhile_append_of_pos m.ne_colon]
  simp

theorem Field.dropWhile_append (m : Field) (rest : List UInt8) :
    (m.text ++ colon :: rest).dropWhile (· ≠ colon) = colon :: rest := by
  rw [List.dropWhile_append_of_pos m.ne_colon]
  simp

/-- A passphrase that is there stays in front of its colon. -/
theorem Field.skipColon_append (hm : m.text ≠ []) :
    skipColon (m.text ++ rest) = m.text ++ rest := by
  obtain ⟨c, text, htext⟩ := List.exists_cons_of_ne_nil hm
  rw [htext]
  refine if_neg fun h => m.colon_notMem ?_
  rw [htext, ← Option.some.inj h]
  exact List.mem_cons_self

/-- A descriptor has no terminator inside. -/
theorem cString_argon2Descriptor (m d t : Field) :
    cString (argon2Descriptor m d t) = argon2Descriptor m d t := by
  rw [cString, List.takeWhile_eq_self_iff]
  have hkeyword : (ascii "chacha20-argon2:").elem 0 = false := rfl
  intro c hc
  refine decide_eq_true fun hzero => ?_
  subst hzero
  simp only [argon2Descriptor, List.mem_append, List.mem_cons] at hc
  rcases hc with hc | hc | hc | hc | hc | hc
  · exact absurd (List.elem_eq_true_of_mem hc) (by rw [hkeyword]; exact Bool.false_ne_true)
  · exact m.zero_notMem hc
  · exact absurd hc (by decide)
  · exact d.zero_notMem hc
  · exact absurd hc (by decide)
  · exact t.zero_notMem hc

theorem randomOpenParse_argon2Descriptor (m d t : Field) :
    randomOpenParse (argon2Descriptor m d t) =
      some <$> parseChacha20Argon2 (m.text ++ colon :: (d.text ++ colon :: t.text)) :=
  randomOpenParse_chacha20Argon2 (cString_argon2Descriptor m d t)

/-- The fields behind a passphrase. -/
theorem Field.behind_colon (d t : Field) :
    field (colon :: (d.text ++ colon :: t.text)) = d.text ∧
      behind (colon :: (d.text ++ colon :: t.text)) = colon :: t.text :=
  ⟨d.takeWhile_append _, d.dropWhile_append _⟩

/-- **A passphrase that is there**: the fields are those of the descriptor. -/
theorem answer_argon2Descriptor (hm : m.text ≠ []) :
    (randomOpenParse (argon2Descriptor m d t)).answer =
      some (some (.chacha20Argon2 m.text d.text t.text)) := by
  have hfield : field (m.text ++ colon :: (d.text ++ colon :: t.text)) = m.text := by
    rw [field, Field.skipColon_append hm, m.takeWhile_append]
  have hbehind : behind (m.text ++ colon :: (d.text ++ colon :: t.text)) =
      colon :: (d.text ++ colon :: t.text) := by
    rw [behind, Field.skipColon_append hm, m.dropWhile_append]
  obtain ⟨hdomain, hlast⟩ := Field.behind_colon d t
  rw [randomOpenParse_argon2Descriptor, Traced.answer_map,
    answer_parseChacha20Argon2 hfield (by rw [hbehind, hdomain])
      (by rw [hbehind, hlast, t.field_last]) ⟨m.zero_notMem, d.zero_notMem, t.zero_notMem⟩
      ⟨m.length_le, d.length_le, t.length_le⟩, Option.map_some]

/-- **An empty passphrase**: the other fields move up. -/
theorem answer_argon2Descriptor_nil (hm : m.text = []) :
    (randomOpenParse (argon2Descriptor m d t)).answer =
      some (some (.chacha20Argon2 d.text t.text [])) := by
  obtain ⟨hdomain, hlast⟩ := Field.behind_colon d t
  have hempty : field [] = [] := rfl
  rw [randomOpenParse_argon2Descriptor, hm, List.nil_append, Traced.answer_map,
    answer_parseChacha20Argon2 hdomain (by rw [hlast, t.field_last])
      (by rw [hlast, t.behind_last, hempty]) ⟨d.zero_notMem, t.zero_notMem, List.not_mem_nil⟩
      ⟨d.length_le, t.length_le, Nat.zero_le _⟩, Option.map_some]

/-- When the fields are those of the descriptor. -/
theorem answer_argon2Descriptor_iff :
    (randomOpenParse (argon2Descriptor m d t)).answer =
        some (some (.chacha20Argon2 m.text d.text t.text)) ↔
      m.text ≠ [] ∨ d.text = [] ∧ t.text = [] := by
  by_cases hm : m.text = []
  · rw [answer_argon2Descriptor_nil hm, hm]
    simp only [Option.some.injEq, RandomOpen.chacha20Argon2.injEq, ne_eq, not_true_eq_false,
      false_or]
    constructor
    · rintro ⟨hd, ht, -⟩
      exact ⟨hd, ht.trans hd⟩
    · rintro ⟨hd, ht⟩
      exact ⟨hd, ht.trans hd.symm, ht.symm⟩
  · exact iff_of_true (answer_argon2Descriptor hm) (.inl hm)

end Fields

/-- **Randomness descriptors.**  The fields of `chacha20-argon2:m:d:t` are what the source is opened
with exactly when the passphrase is there, or all of them are empty, and then different fields open
it with different ones; and the copies of a descriptor stay inside the arrays exactly when its
fields fit into them. -/
theorem random_open_parse_iff (m d t : Field) (desc : List UInt8) :
    ((randomOpenParse (argon2Descriptor m d t)).answer =
        some (some (.chacha20Argon2 m.text d.text t.text)) ↔
      m.text ≠ [] ∨ d.text = [] ∧ t.text = []) ∧
    (∀ m' d' t' : Field, m.text ≠ [] ∨ d.text = [] ∧ t.text = [] →
      m'.text ≠ [] ∨ d'.text = [] ∧ t'.text = [] →
      (randomOpenParse (argon2Descriptor m d t)).answer =
        (randomOpenParse (argon2Descriptor m' d' t')).answer →
      m.text = m'.text ∧ d.text = d'.text ∧ t.text = t'.text) ∧
    ((randomOpenParse desc).All Copy.Fits ↔ DescriptorFits desc) := by
  refine ⟨answer_argon2Descriptor_iff, fun m' d' t' hm hm' heq => ?_, all_randomOpenParse_iff⟩
  rw [answer_argon2Descriptor_iff.mpr hm, answer_argon2Descriptor_iff.mpr hm'] at heq
  simpa only [Option.some.injEq, RandomOpen.chacha20Argon2.injEq] using heq

/-- The domain of the documented example. -/
def domainField : Field := ⟨ascii "example.com", by decide, by decide, by decide⟩

/-- Its token. -/
def tokenField : Field := ⟨ascii "1", by decide, by decide, by decide⟩

/-- A field with nothing in it. -/
def emptyField : Field := ⟨[], by decide, by decide, by decide⟩

theorem random_open_parse_fields :
    (randomOpenParse (argon2Descriptor domainField tokenField emptyField)).answer =
      some (some (.chacha20Argon2 (ascii "example.com") (ascii "1") [])) :=
  (random_open_parse_iff domainField tokenField emptyField []).1.mpr (.inl (by decide))

/-- Without a passphrase the domain is the passphrase, as if it had been given as one; and a key of
33 bytes is copied into 32. -/
theorem random_open_parse_moves_fields :
    (randomOpenParse (argon2Descriptor emptyField domainField tokenField)).answer =
        some (some (.chacha20Argon2 (ascii "example.com") (ascii "1") [])) ∧
      (randomOpenParse (argon2Descriptor domainField tokenField emptyField)).answer =
        some (some (.chacha20Argon2 (ascii "example.com") (ascii "1") [])) ∧
      ¬ (randomOpenParse (ascii "chacha20:" ++ List.replicate 33 97)).All Copy.Fits := by
  refine ⟨answer_argon2Descriptor_nil rfl, answer_argon2Descriptor (by decide), fun h => ?_⟩
  have hfits := (all_randomOpenParse_iff.mp h).chacha20 (List.replicate 33 97) (by decide)
  exact absurd hfits (by decide)

/-- **Seeds of the xorshift source** are never zero. -/
theorem xorshift_seed_ne_zero {desc : List UInt8} {seed : BitVec 64}
    (h : (randomOpenParse desc).answer = some (some (.xorshift seed))) : seed ≠ 0 := by
  have hchacha : ∀ rest, (parseChacha20 rest).answer ≠ some (.xorshift seed) := fun rest => by
    simp [parseChacha20, Option.bind_eq_some_iff, Traced.answer_map]
  have hargon : ∀ rest, (parseChacha20Argon2 rest).answer ≠ some (.xorshift seed) := fun rest => by
    simp [parseChacha20Argon2, Option.bind_eq_some_iff, Traced.answer_map]
  simp only [randomOpenParse] at h
  split_ifs at h with _ _ _ hnull
  all_goals simp only [Traced.answer_pure, Traced.answer_map, Option.some.injEq,
    Option.map_eq_some_iff, reduceCtorEq, exists_eq_right, hchacha, hargon,
    RandomOpen.xorshift.injEq] at h
  rw [not_or] at hnull
  exact h ▸ hnull.2

end Passgen
