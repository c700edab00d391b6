import AgencyNode.JsonNumerals
import AgencyNode.Lib.Utf8

/-!
# Strings

What `parseString` accepts and which bytes it returns, without the blocks and the
state of its loop.  `Characters t b t'` says that `t` is the text of a string behind
its opening quote, that `b` are its bytes, and that `t'` comes behind.  The bytes
need not be UTF-8: other bytes are taken over, and so is half a surrogate pair.
-/

namespace AgencyNode

open Lib

namespace Parser

/-- The first half of a surrogate pair. -/
def IsHigh (v : Nat) : Prop :=
  0xd800 ≤ v ∧ v < 0xdc00

instance : DecidablePred IsHigh :=
  fun _ => inferInstanceAs (Decidable (_ ∧ _))

/-- The second half of a surrogate pair. -/
def IsLow (v : Nat) : Prop :=
  0xdc00 ≤ v ∧ v < 0xe000

/-- The number that the two halves stand for. -/
def surrogatePair (high low : Nat) : Nat :=
  0x10000 + (high - 0xd800) * 2 ^ 10 + (low - 0xdc00)

/-- The bytes for a number, in UTF-8 if it is a character. -/
def encodeUnicode (v : Nat) : Text :=
  if v < 0x80 then [UInt8.ofNat v]
  else if v < 0x800 then [UInt8.ofNat (0xc0 + v / 2 ^ 6), UInt8.ofNat (0x80 + v % 64)]
  else if v < 0x10000 then
    [UInt8.ofNat (0xe0 + v / 2 ^ 12), UInt8.ofNat (0x80 + v / 2 ^ 6 % 64),
      UInt8.ofNat (0x80 + v % 64)]
  else
    [UInt8.ofNat (0xf0 + v / 2 ^ 18), UInt8.ofNat (0x80 + v / 2 ^ 12 % 64),
      UInt8.ofNat (0x80 + v / 2 ^ 6 % 64), UInt8.ofNat (0x80 + v % 64)]

/-- The number of which these are the hexadecimal digits, behind `v`. -/
def hexNumber (v : Nat) (hex : Text) : Option Nat :=
  hex.foldlM (fun v i => (hexValue i).map (v * 16 + ·)) v

/-- The text begins with the escape sequence of a number. -/
def UnicodeEscape (v : Nat) (t t' : Text) : Prop :=
  ∃ hex : Text, hex.length = 4 ∧ hexNumber 0 hex = some v ∧
    t = 0x5c :: 0x75 :: (hex ++ t')

/-- In front of the text, these bytes are copied in blocks. -/
def InBlocks (copied t : Text) : Prop :=
  (∀ i ∈ copied, isPlain i = true) ∧ (copied ≠ [] → 15 ≤ t.length)

/-- The second half of a surrogate pair comes, with nothing but blocks before it. -/
def MeetsLow (t : Text) : Prop :=
  ∃ (copied : Text) (low : Nat) (t1 t' : Text),
    t = copied ++ t1 ∧ InBlocks copied t1 ∧ IsLow low ∧ UnicodeEscape low t1 t'

/--
The text of a string up to its closing quote, and its bytes.  Both halves of a surrogate
pair become one character, and a half on its own keeps its three bytes.  Bytes that are
copied in blocks between the two halves do not separate them: the last three bytes in
front of the second half are given up for the character, whichever they are.
-/
inductive Characters : Text → Text → Text → Prop
  | quote
      (t : Text) :
      Characters (0x22 :: t) [] t
  | plain
      {i : UInt8}
      {t b t' : Text}
      (hi : isPlain i = true)
      (h : Characters t b t') :
      Characters (i :: t) (i :: b) t'
  | escape
      {i c : UInt8}
      {t b t' : Text}
      (hi : escapedByte i = some c)
      (h : Characters t b t') :
      Characters (0x5c :: i :: t) (c :: b) t'
  | unicode
      {v : Nat}
      {t t1 b t' : Text}
      (hv : UnicodeEscape v t t1)
      (hlone : IsHigh v → ¬ MeetsLow t1)
      (h : Characters t1 b t') :
      Characters t (encodeUnicode v ++ b) t'
  | pair
      {high low : Nat}
      {copied t t1 t2 b t' : Text}
      (hhigh : IsHigh high)
      (hv : UnicodeEscape high t (copied ++ t1))
      (hcopied : InBlocks copied t1)
      (hlow : IsLow low)
      (hv' : UnicodeEscape low t1 t2)
      (h : Characters t2 b t') :
      Characters t ((encodeUnicode high ++ copied).take copied.length ++
        encodeUnicode (surrogatePair high low) ++ b) t'

/-- The bytes of a character are its UTF-8. -/
theorem encodeUnicode_toNat
    (c : Char) :
    encodeUnicode c.toNat = String.utf8EncodeChar c := by
  have hmax : c.val.toNat < 0x110000 := by
    rcases c.valid with h | ⟨_, h⟩
    · exact Nat.lt_trans h (by decide)
    · exact h
  rw [encodeUnicode, String.utf8EncodeChar, Char.toNat]
  generalize c.val.toNat = v at hmax
  have hlast : 0x80 + v % 64 = v % 0x40 + 0x80 := Nat.add_comm _ _
  have hmiddle : 0x80 + v / 2 ^ 6 % 64 = v / 64 % 0x40 + 0x80 := Nat.add_comm _ _
  by_cases hone : v < 0x80
  · rw [if_pos hone, if_pos (Nat.le_of_lt_succ hone)]
  by_cases htwo : v < 0x800
  · have hfirst : 0xc0 + v / 2 ^ 6 = v / 64 % 0x20 + 0xc0 := by omega
    rw [if_neg hone, if_pos htwo, if_neg (by omega), if_pos (Nat.le_of_lt_succ htwo), hfirst,
      hlast]
  by_cases hthree : v < 0x10000
  · have hfirst : 0xe0 + v / 2 ^ 12 = v / 4096 % 0x10 + 0xe0 := by omega
    rw [if_neg hone, if_neg htwo, if_pos hthree, if_neg (by omega), if_neg (by omega),
      if_pos (Nat.le_of_lt_succ hthree), hfirst, hmiddle, hlast]
  · have hfirst : 0xf0 + v / 2 ^ 18 = v / 262144 % 0x08 + 0xf0 := by omega
    have hsecond : 0x80 + v / 2 ^ 12 % 64 = v / 4096 % 0x40 + 0x80 := Nat.add_comm _ _
    rw [if_neg hone, if_neg htwo, if_neg hthree, if_neg (by omega), if_neg (by omega),
      if_neg (by omega), hfirst, hsecond, hmiddle, hlast]

theorem UnicodeEscape.length
    {v : Nat}
    {t t' : Text}
    (h : UnicodeEscape v t t') :
    t'.length < t.length := by
  obtain ⟨hex, _, _, rfl⟩ := h
  rw [List.length_cons, List.length_cons, List.length_append]
  omega

/-- Every string has a closing quote. -/
theorem Characters.length
    {t b t' : Text}
    (h : Characters t b t') :
    t'.length < t.length := by
  induction h with
  | quote t => exact Nat.lt_succ_self _
  | plain _ _ ih => exact Nat.lt_succ_of_lt ih
  | escape _ _ ih => exact Nat.lt_succ_of_lt (Nat.lt_succ_of_lt ih)
  | unicode hv _ _ ih => exact Nat.lt_trans ih hv.length
  | pair _ hv _ _ hv' _ ih =>
      have hlength := hv.length
      have := hv'.length
      rw [List.length_append] at hlength
      omega

/-! ## Bytes -/

theorem isPlain_iff
    {b : UInt8} :
    isPlain b = true ↔
      (b == 0x22) = false ∧ (b == 0x5c) = false ∧ (b &&& 0x80 == 0 && b < 0x20) = false := by
  have hall : ∀ n < 256, isPlain (UInt8.ofNat n) = true ↔
      (UInt8.ofNat n == 0x22) = false ∧ (UInt8.ofNat n == 0x5c) = false ∧
        (UInt8.ofNat n &&& 0x80 == 0 && UInt8.ofNat n < 0x20) = false := by
    decide +kernel
  exact Utf8.forall_byte (p := fun b => isPlain b = true ↔
    (b == 0x22) = false ∧ (b == 0x5c) = false ∧ (b &&& 0x80 == 0 && b < 0x20) = false)
    hall b

theorem copyCount_of_lt
    {t : Text}
    (h : t.length < 16) :
    copyCount t = 0 := by
  rw [copyCount]
  exact if_neg (by omega)

theorem copyCount_of_not_plain
    {b : UInt8}
    (hb : isPlain b = false)
    (t : Text) :
    copyCount (b :: t) = 0 := by
  by_cases h : (b :: t).length ≥ 16
  · have htake : (b :: t).length - 15 = ((b :: t).length - 16) + 1 := by omega
    rw [copyCount, if_pos h, jsonStringCopy, htake, List.take_succ_cons,
      List.takeWhile_cons_of_neg (by simp [hb])]
    rfl
  · exact copyCount_of_lt (by omega)

/-- A plain byte is one more byte for the block. -/
theorem copyCount_of_plain
    {b : UInt8}
    (hb : isPlain b = true)
    {t : Text}
    (h : (b :: t).length ≥ 16) :
    copyCount (b :: t) = copyCount t + 1 := by
  have htake : (b :: t).length - 15 = (t.length - 15) + 1 := by
    rw [List.length_cons] at h ⊢
    omega
  rw [copyCount, if_pos h, jsonStringCopy, htake, List.take_succ_cons,
    List.takeWhile_cons_of_pos hb, List.length_cons]
  congr 1
  by_cases ht : t.length ≥ 16
  · rw [copyCount, if_pos ht, jsonStringCopy]
  · rw [copyCount_of_lt (by omega)]
    have hzero : t.length - 15 = 0 := by omega
    rw [hzero]
    rfl

/-- One round of the loop of `parseString`, after the block that it copies. -/
theorem parseString_eq
    (s : StringState)
    (t : Text) :
    parseString s t =
      match t.drop (copyCount t) with
      | [] => parseError "Unfinished string"
      | i :: behind =>
          let s : StringState := ⟨s.out ++ t.take (copyCount t), s.highSurrogate⟩
          if i == 0x22 then .ok (s.out, behind)
          else if i == 0x5c then do
            let (s, behind) ← parseEscape s behind
            parseString s behind
          else if i &&& 0x80 == 0 && i < 0x20 then .error .unexpectedControlCharacter
          else parseString (s.append [i]) behind := by
  rw [parseString]
  generalize hdrop : t.drop (copyCount t) = t1
  cases t1 with
  | nil => rfl
  | cons i behind =>
      dsimp only
      split
      · rfl
      · split
        · cases parseEscape ⟨s.out ++ t.take (copyCount t), s.highSurrogate⟩ behind <;> rfl
        · rfl

/-- A plain byte in a block does not end the wait for the second half. -/
theorem parseString_block
    (s : StringState)
    {b : UInt8}
    (hb : isPlain b = true)
    {t : Text}
    (h : 15 ≤ t.length) :
    parseString s (b :: t) = parseString ⟨s.out ++ [b], s.highSurrogate⟩ t := by
  have hlength : (b :: t).length ≥ 16 := by
    rw [List.length_cons]
    omega
  rw [parseString_eq, parseString_eq _ t, copyCount_of_plain hb hlength, List.drop_succ_cons,
    List.take_succ_cons, List.append_assoc]
  rfl

theorem parseString_inBlocks
    (s : StringState)
    {copied t : Text}
    (h : InBlocks copied t) :
    parseString s (copied ++ t) = parseString ⟨s.out ++ copied, s.highSurrogate⟩ t := by
  obtain ⟨hplain, hlength⟩ := h
  induction copied generalizing s with
  | nil => rw [List.nil_append, List.append_nil]
  | cons b copied ih =>
      have hbehind := hlength (List.cons_ne_nil _ _)
      have hle : 15 ≤ (copied ++ t).length := by
        rw [List.length_append]
        omega
      rw [List.cons_append, parseString_block s (hplain b List.mem_cons_self) hle,
        ih _ (fun i hi => hplain i (List.mem_cons_of_mem _ hi)) (fun _ => hbehind),
        List.append_assoc]
      rfl

/-- A plain byte on its own ends it. -/
theorem parseString_single
    (s : StringState)
    {b : UInt8}
    (hb : isPlain b = true)
    {t : Text}
    (h : t.length < 15) :
    parseString s (b :: t) = parseString ⟨s.out ++ [b], 0⟩ t := by
  obtain ⟨hquote, hescape, hcontrol⟩ := isPlain_iff.mp hb
  have hlength : (b :: t).length < 16 := by
    rw [List.length_cons]
    omega
  rw [parseString_eq, copyCount_of_lt hlength, List.drop_zero, List.take_zero, List.append_nil]
  simp only [hquote, hescape, hcontrol, Bool.false_eq_true, if_false]
  rfl

/-- Without a high surrogate, a plain byte is copied, in a block or on its own. -/
theorem parseString_plain
    {b : UInt8}
    (hb : isPlain b = true)
    (out t : Text) :
    parseString ⟨out, 0⟩ (b :: t) = parseString ⟨out ++ [b], 0⟩ t := by
  by_cases h : 15 ≤ t.length
  · exact parseString_block _ hb h
  · exact parseString_single _ hb (Nat.not_le.mp h)

theorem parseString_quote
    (s : StringState)
    (t : Text) :
    parseString s (0x22 :: t) = .ok (s.out, t) := by
  rw [parseString_eq, copyCount_of_not_plain (by decide), List.drop_zero, List.take_zero,
    List.append_nil]
  rfl

theorem parseString_control
    (s : StringState)
    {i : UInt8}
    (hplain : isPlain i = false)
    (hquote : i ≠ 0x22)
    (hbackslash : i ≠ 0x5c)
    (t : Text) :
    parseString s (i :: t) = .error .unexpectedControlCharacter := by
  have hquote' := beq_eq_false_iff_ne.mpr hquote
  have hbackslash' := beq_eq_false_iff_ne.mpr hbackslash
  have hcontrol : (i &&& 0x80 == 0 && i < 0x20) = true := by
    rw [← Bool.not_eq_false]
    intro hcontrol
    rw [isPlain_iff.mpr ⟨hquote', hbackslash', hcontrol⟩] at hplain
    cases hplain
  rw [parseString_eq, copyCount_of_not_plain hplain, List.drop_zero, List.take_zero,
    List.append_nil]
  simp only [hquote', hbackslash', hcontrol, Bool.false_eq_true, if_false, if_true]

/-! ## Escape sequences -/

theorem parseString_backslash
    (s : StringState)
    (t : Text) :
    parseString s (0x5c :: t) = (do
      let (s, behind) ← parseEscape s t
      parseString s behind) := by
  rw [parseString_eq, copyCount_of_not_plain (by decide), List.drop_zero, List.take_zero,
    List.append_nil]
  rfl

theorem parseString_escape
    (s : StringState)
    {i c : UInt8}
    (hi : escapedByte i = some c)
    (t : Text) :
    parseString s (0x5c :: i :: t) = parseString ⟨s.out ++ [c], 0⟩ t := by
  rw [parseString_backslash, parseEscape]
  simp only [hi]
  rfl

theorem hexNumber_cons
    (v : Nat)
    (i : UInt8)
    (hex : Text) :
    hexNumber v (i :: hex) = (hexValue i).bind fun d => hexNumber (v * 16 + d) hex := by
  rw [hexNumber, List.foldlM_cons]
  cases hexValue i <;> rfl

theorem parseHex_eq_ok_iff
    {j v v' : Nat}
    {t t' : Text} :
    parseHex j v t = .ok (v', t') ↔
      ∃ hex : Text, hex.length = j ∧ hexNumber v hex = some v' ∧ t = hex ++ t' := by
  induction j generalizing v t with
  | zero =>
      constructor
      · intro h
        cases h
        exact ⟨[], rfl, rfl, rfl⟩
      · rintro ⟨hex, hlength, hv, rfl⟩
        obtain rfl := List.length_eq_zero_iff.mp hlength
        cases hv
        rfl
  | succ j ih =>
      cases t with
      | nil =>
          constructor
          · intro h
            cases h
          · rintro ⟨hex, hlength, _, ht⟩
            obtain ⟨rfl, _⟩ := List.append_eq_nil_iff.mp ht.symm
            cases hlength
      | cons i t =>
          rw [parseHex]
          constructor
          · intro h
            cases hd : hexValue i with
            | none =>
                rw [hd] at h
                cases h
            | some d =>
                rw [hd] at h
                obtain ⟨hex, hlength, hv, rfl⟩ := ih.mp h
                refine ⟨i :: hex, by rw [List.length_cons, hlength], ?_, rfl⟩
                rw [hexNumber_cons, hd]
                exact hv
          · rintro ⟨_ | ⟨i', hex⟩, hlength, hv, ht⟩
            · cases hlength
            · cases ht
              rw [hexNumber_cons] at hv
              obtain ⟨d, hd, hv⟩ := Option.bind_eq_some_iff.mp hv
              rw [hd]
              exact ih.mpr ⟨hex, Nat.succ.inj hlength, hv, rfl⟩

theorem hexValue_lt
    {i : UInt8}
    {d : Nat}
    (h : hexValue i = some d) :
    d < 16 := by
  have hall : ∀ n < 256, ∀ d ∈ hexValue (UInt8.ofNat n), d < 16 := by
    decide +kernel
  exact Utf8.forall_byte (p := fun i => ∀ d ∈ hexValue i, d < 16) hall i d h

theorem hexNumber_lt
    {v v' : Nat}
    {hex : Text}
    (h : hexNumber v hex = some v') :
    v' < (v + 1) * 16 ^ hex.length := by
  induction hex generalizing v with
  | nil =>
      cases h
      rw [List.length_nil, Nat.pow_zero, Nat.mul_one]
      exact Nat.lt_succ_self _
  | cons i hex ih =>
      rw [hexNumber_cons] at h
      obtain ⟨d, hd, h⟩ := Option.bind_eq_some_iff.mp h
      have := hexValue_lt hd
      calc v' < (v * 16 + d + 1) * 16 ^ hex.length := ih h
        _ ≤ (v + 1) * 16 * 16 ^ hex.length := Nat.mul_le_mul_right _ (by omega)
        _ = (v + 1) * 16 ^ (i :: hex).length := by
          rw [List.length_cons, Nat.pow_succ, Nat.mul_assoc, Nat.mul_comm 16]

theorem UnicodeEscape.lt
    {v : Nat}
    {t t' : Text}
    (h : UnicodeEscape v t t') :
    v < 0x10000 := by
  obtain ⟨hex, hlength, hv, _⟩ := h
  have hlt := hexNumber_lt hv
  rwa [hlength] at hlt

theorem parseString_unicode
    (s : StringState)
    {v : Nat}
    {t t' : Text}
    (h : UnicodeEscape v t t') :
    parseString s t = parseString (s.appendUnicode v) t' := by
  obtain ⟨hex, hlength, hv, rfl⟩ := h
  rw [parseString_backslash, parseEscape]
  change (parseHex 4 0 (hex ++ t') >>= _) >>= _ = _
  rw [parseHex_eq_ok_iff.mpr ⟨hex, hlength, hv, rfl⟩]
  rfl

/-- The two kinds of escape sequences. -/
theorem parseEscape_eq_ok
    {s s' : StringState}
    {t t' : Text}
    (h : parseEscape s t = .ok (s', t')) :
    (∃ i c, escapedByte i = some c ∧ t = i :: t' ∧ s' = ⟨s.out ++ [c], 0⟩) ∨
      ∃ v, UnicodeEscape v (0x5c :: t) t' ∧ s' = s.appendUnicode v := by
  cases t with
  | nil => cases h
  | cons i t =>
      rw [parseEscape] at h
      cases hi : escapedByte i with
      | some c =>
          rw [hi] at h
          cases h
          exact .inl ⟨i, c, hi, rfl, rfl⟩
      | none =>
          rw [hi] at h
          by_cases hu : (i == 0x75) = true
          · dsimp only at h
            rw [if_pos hu] at h
            obtain ⟨⟨v, t1⟩, hv, h⟩ := Result.bind_eq_ok.mp h
            cases h
            rw [beq_iff_eq.mp hu]
            obtain ⟨hex, hlength, hnumber, rfl⟩ := parseHex_eq_ok_iff.mp hv
            exact .inr ⟨v, ⟨hex, hlength, hnumber, rfl⟩, rfl⟩
          · dsimp only at h
            rw [if_neg hu] at h
            cases h

/-! ## Surrogate pairs -/

/-- A number that is no second half forgets the first half, or is one. -/
theorem appendUnicode_of_not_isLow
    (s : StringState)
    {v : Nat}
    (hv : v < 0x10000)
    (hlow : IsLow v → s.highSurrogate = 0) :
    s.appendUnicode v =
      ⟨s.out ++ encodeUnicode v, if IsHigh v then v else 0⟩ := by
  have hpair : ¬ (0xdc00 ≤ v ∧ v < 0xe000 ∧ s.highSurrogate ≠ 0) :=
    fun h => h.2.2 (hlow ⟨h.1, h.2.1⟩)
  change _ = (⟨s.out ++ encodeUnicode v, if 0xd800 ≤ v ∧ v < 0xdc00 then v else 0⟩ : StringState)
  rw [StringState.appendUnicode, encodeUnicode]
  simp only [hv, if_true, hpair, if_false]
  split_ifs
  · omega
  · rfl
  · omega
  · rfl
  · rfl
  · rfl

theorem length_encodeUnicode_of_isHigh
    {v : Nat}
    (hv : IsHigh v) :
    (encodeUnicode v).length = 3 := by
  obtain ⟨hmin, hmax⟩ := hv
  rw [encodeUnicode, if_neg (by omega), if_neg (by omega), if_pos (by omega)]
  rfl

theorem appendUnicode_of_isLow
    (out copied : Text)
    {high low : Nat}
    (hhigh : IsHigh high)
    (hlow : IsLow low) :
    (⟨out ++ encodeUnicode high ++ copied, high⟩ : StringState).appendUnicode low =
      ⟨out ++ ((encodeUnicode high ++ copied).take copied.length ++
        encodeUnicode (surrogatePair high low)), 0⟩ := by
  obtain ⟨hmin, hmax⟩ := hlow
  have hhigh' := hhigh
  obtain ⟨hmin', hmax'⟩ := hhigh'
  have hlength : (out ++ encodeUnicode high ++ copied).length - 3 =
      out.length + copied.length := by
    rw [List.length_append, List.length_append, length_encodeUnicode_of_isHigh hhigh]
    omega
  have hnumber : 0x10000 + (high - 0xd800) * 2 ^ 10 + low - 0xdc00 = surrogatePair high low := by
    unfold surrogatePair
    omega
  have hencode : encodeUnicode (surrogatePair high low) =
      [UInt8.ofNat (0xf0 + surrogatePair high low / 2 ^ 18),
        UInt8.ofNat (0x80 + surrogatePair high low / 2 ^ 12 % 64),
        UInt8.ofNat (0x80 + surrogatePair high low / 2 ^ 6 % 64),
        UInt8.ofNat (0x80 + surrogatePair high low % 64)] := by
    have hlarge : 0x10000 ≤ surrogatePair high low := by
      unfold surrogatePair
      omega
    rw [encodeUnicode, if_neg (by omega), if_neg (by omega), if_neg (by omega)]
  have hhigh : (high : Nat) ≠ 0 := by omega
  rw [StringState.appendUnicode]
  dsimp only
  rw [if_neg (by omega), if_neg (by omega), if_pos ⟨hmin, hmax, hhigh⟩, hlength, hnumber,
    List.append_assoc, List.take_length_add_append, hencode, List.append_assoc]

theorem appendUnicode_forget
    {v : Nat}
    (hv : v < 0x10000)
    (hlow : ¬ IsLow v)
    (out : Text)
    (high : Nat) :
    (⟨out, high⟩ : StringState).appendUnicode v =
      (⟨out, 0⟩ : StringState).appendUnicode v := by
  rw [appendUnicode_of_not_isLow _ hv (absurd · hlow),
    appendUnicode_of_not_isLow _ hv (absurd · hlow)]

theorem parseEscape_forget
    {t : Text}
    (h : ∀ v t', UnicodeEscape v (0x5c :: t) t' → ¬ IsLow v)
    (out : Text)
    (high : Nat) :
    parseEscape ⟨out, high⟩ t = parseEscape ⟨out, 0⟩ t := by
  cases t with
  | nil => rfl
  | cons i t =>
      rw [parseEscape, parseEscape]
      cases escapedByte i with
      | some c => rfl
      | none =>
          dsimp only
          by_cases hu : (i == 0x75) = true
          · rw [if_pos hu, if_pos hu]
            rw [beq_iff_eq.mp hu] at h
            cases hparse : parseHex 4 0 t with
            | error e => rw [Result.error_bind, Result.error_bind]
            | ok p =>
                obtain ⟨hex, hlength, hv, ht⟩ := parseHex_eq_ok_iff.mp hparse
                have hescape : UnicodeEscape p.1 (0x5c :: 0x75 :: t) p.2 :=
                  ⟨hex, hlength, hv, by rw [ht]⟩
                rw [Result.ok_bind, Result.ok_bind,
                  appendUnicode_forget hescape.lt (h _ _ hescape)]
          · rw [if_neg hu, if_neg hu]

/-- A first half without a second half waits in vain. -/
theorem parseString_forget
    {t : Text}
    (h : ¬ MeetsLow t)
    (out : Text)
    (high : Nat) :
    parseString ⟨out, high⟩ t = parseString ⟨out, 0⟩ t := by
  induction t generalizing out with
  | nil =>
      rw [parseString_eq, parseString_eq ⟨out, 0⟩]
      rfl
  | cons i t ih =>
      by_cases hplain : isPlain i = true
      · by_cases hlength : 15 ≤ t.length
        · rw [parseString_block _ hplain hlength, parseString_block _ hplain hlength]
          apply ih
          rintro ⟨copied, low, t1, t', rfl, ⟨hcopied, hblock⟩, hlow, hv⟩
          refine h ⟨i :: copied, low, t1, t', rfl, ⟨?_, fun _ => ?_⟩, hlow, hv⟩
          · intro j hj
            rcases List.mem_cons.mp hj with rfl | hj
            · exact hplain
            · exact hcopied j hj
          · by_cases hnil : copied = []
            · rwa [hnil] at hlength
            · exact hblock hnil
        · rw [parseString_single _ hplain (Nat.not_le.mp hlength),
            parseString_single _ hplain (Nat.not_le.mp hlength)]
      rw [Bool.not_eq_true] at hplain
      by_cases hquote : i = 0x22
      · rw [hquote, parseString_quote, parseString_quote]
      by_cases hbackslash : i = 0x5c
      · rw [hbackslash] at h ⊢
        rw [parseString_backslash, parseString_backslash, parseEscape_forget]
        exact fun v t' hv hlow => h ⟨[], v, _, t', rfl, ⟨by simp, by simp⟩, hlow, hv⟩
      rw [parseString_control _ hplain hquote hbackslash,
        parseString_control _ hplain hquote hbackslash]

/-- The steps of the loop with no high surrogate, from the token on. -/
theorem parseString_sound
    {out t b t' : Text}
    (h : parseString ⟨out, 0⟩ t = .ok (b, t')) :
    ∃ c, b = out ++ c ∧ Characters t c t' := by
  induction hn : t.length using Nat.strongRecOn generalizing out t with
  | ind n ih =>
      cases t with
      | nil =>
          rw [parseString_eq] at h
          cases h
      | cons i t =>
          rw [List.length_cons] at hn
          by_cases hplain : isPlain i = true
          · rw [parseString_plain hplain] at h
            obtain ⟨c, rfl, hc⟩ := ih t.length (by omega) h rfl
            exact ⟨i :: c, List.append_assoc _ _ _, .plain hplain hc⟩
          rw [Bool.not_eq_true] at hplain
          by_cases hquote : i = 0x22
          · rw [hquote, parseString_quote] at h
            cases h
            rw [hquote]
            exact ⟨[], (List.append_nil _).symm, .quote _⟩
          by_cases hbackslash : i = 0x5c
          · rw [hbackslash, parseString_backslash] at h
            rw [hbackslash]
            obtain ⟨⟨s', t1⟩, hescape, h⟩ := Result.bind_eq_ok.mp h
            have hlength := parseEscape_length hescape
            rcases parseEscape_eq_ok hescape with ⟨i, c, hi, rfl, rfl⟩ | ⟨v, hv, rfl⟩
            · obtain ⟨b, rfl, hb⟩ := ih t1.length (by omega) h rfl
              exact ⟨c :: b, List.append_assoc _ _ _, .escape hi hb⟩
            · rw [appendUnicode_of_not_isLow _ hv.lt fun _ => rfl] at h
              dsimp only at h
              by_cases hhigh : IsHigh v
              · rw [if_pos hhigh] at h
                by_cases hmeets : MeetsLow t1
                · obtain ⟨copied, low, t2, t3, rfl, hblocks, hlow, hv'⟩ := hmeets
                  rw [parseString_inBlocks _ hblocks, parseString_unicode _ hv',
                    appendUnicode_of_isLow _ _ hhigh hlow] at h
                  have := hv'.length
                  rw [List.length_append] at hlength
                  obtain ⟨b, rfl, hb⟩ := ih t3.length (by omega) h rfl
                  exact ⟨_, List.append_assoc _ _ _, .pair hhigh hv hblocks hlow hv' hb⟩
                · rw [parseString_forget hmeets] at h
                  obtain ⟨b, rfl, hb⟩ := ih t1.length (by omega) h rfl
                  exact ⟨_, List.append_assoc _ _ _, .unicode hv (fun _ => hmeets) hb⟩
              · rw [if_neg hhigh] at h
                obtain ⟨b, rfl, hb⟩ := ih t1.length (by omega) h rfl
                exact ⟨_, List.append_assoc _ _ _, .unicode hv (absurd · hhigh) hb⟩
          · rw [parseString_control _ hplain hquote hbackslash] at h
            cases h

theorem Characters.parseString
    {t b t' : Text}
    (h : Characters t b t')
    (out : Text) :
    parseString ⟨out, 0⟩ t = .ok (out ++ b, t') := by
  induction h generalizing out with
  | quote t => rw [parseString_quote, List.append_nil]
  | plain hi _ ih =>
      rw [parseString_plain hi, ih, List.append_assoc]
      rfl
  | escape hi _ ih =>
      rw [parseString_escape _ hi, ih, List.append_assoc]
      rfl
  | @unicode v t t1 b t' hv hlone _ ih =>
      rw [parseString_unicode _ hv, appendUnicode_of_not_isLow _ hv.lt fun _ => rfl]
      by_cases hhigh : IsHigh v
      · rw [if_pos hhigh, parseString_forget (hlone hhigh), ih, List.append_assoc]
      · rw [if_neg hhigh, ih, List.append_assoc]
  | pair hhigh hv hcopied hlow hv' _ ih =>
      rw [parseString_unicode _ hv, appendUnicode_of_not_isLow _ hv.lt fun _ => rfl,
        if_pos hhigh, parseString_inBlocks _ hcopied, parseString_unicode _ hv',
        appendUnicode_of_isLow _ _ hhigh hlow, ih, List.append_assoc]

/--
**The parser reads strings**: behind the opening quote it accepts the texts of strings,
and returns their bytes.
-/
theorem parseString_eq_ok_iff
    {t b t' : Text} :
    parseString ⟨[], 0⟩ t = .ok (b, t') ↔ Characters t b t' := by
  constructor
  · intro h
    obtain ⟨c, rfl, hc⟩ := parseString_sound h
    exact hc
  · intro h
    exact h.parseString []

/-- A string has one reading. -/
theorem Characters.unique
    {t b t' c t'' : Text}
    (h : Characters t b t')
    (h' : Characters t c t'') :
    b = c ∧ t' = t'' := by
  have heq := (parseString_eq_ok_iff.mpr h).symm.trans (parseString_eq_ok_iff.mpr h')
  cases heq
  exact ⟨rfl, rfl⟩

end Parser

end AgencyNode
