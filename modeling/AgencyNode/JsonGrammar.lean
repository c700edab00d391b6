import Mathlib.Data.List.TakeWhile
import AgencyNode.JsonStrings

/-!
# The texts the parser accepts

`Reads t v t'` is the grammar: the text `t` begins with white space and the text
of the value `v`, and `t'` is what comes behind; its tokens are the numerals and the
strings.  The parser accepts exactly the texts of the grammar that are followed by
white space only, and returns the value the grammar gives.  Whether white space is passed over in blocks does not show,
and the fuel of the recursion is always enough.
-/

namespace AgencyNode

open FlatStore (bytes)

namespace Parser

/-! ## White space -/

/-- The text behind the white space begins with the byte `i`, and goes on with `t'`. -/
def Next (i : UInt8) (t t' : Text) : Prop :=
  t.dropWhile isWhiteSpace = i :: t'

theorem Next.length
    {i : UInt8}
    {t t' : Text}
    (h : Next i t t') :
    t'.length < t.length := by
  have hle := (List.dropWhile_suffix isWhiteSpace (l := t)).length_le
  rw [show t.dropWhile isWhiteSpace = i :: t' from h, List.length_cons] at hle
  omega

theorem Next.not_isWhiteSpace
    {i : UInt8}
    {t t' : Text}
    (h : Next i t t') :
    isWhiteSpace i = false := by
  have hhead := List.head?_dropWhile_not isWhiteSpace t
  rw [show t.dropWhile isWhiteSpace = i :: t' from h] at hhead
  simpa using hhead

theorem Next.tail
    {i : UInt8}
    {t t' : Text}
    (h : Next i t t') :
    (t.dropWhile isWhiteSpace).tail = t' := by
  rw [show t.dropWhile isWhiteSpace = i :: t' from h, List.tail_cons]

theorem skipWhiteSpaceLoop_eq
    (err : String)
    (t : Text) :
    skipWhiteSpaceLoop err t =
      match t.dropWhile isWhiteSpace with
      | [] => parseError err
      | c :: t' => .ok (c, c :: t') := by
  induction t with
  | nil => rfl
  | cons c t ih =>
      rw [skipWhiteSpaceLoop]
      by_cases hc : isWhiteSpace c = true
      · rw [if_pos hc, List.dropWhile_cons_of_pos hc]
        exact ih
      · rw [if_neg hc, List.dropWhile_cons_of_neg hc]

/-- A block of white space at the front does not show. -/
theorem dropWhile_drop
    (p : UInt8 → Bool)
    (t : Text)
    (limit : Nat) :
    (t.drop ((t.take limit).takeWhile p).length).dropWhile p = t.dropWhile p := by
  induction t generalizing limit with
  | nil => simp
  | cons c t ih =>
      cases limit with
      | zero => simp
      | succ limit =>
          rw [List.take_succ_cons]
          by_cases hc : p c = true
          · rw [List.takeWhile_cons_of_pos hc, List.length_cons, List.drop_succ_cons,
              List.dropWhile_cons_of_pos hc]
            exact ih limit
          · rw [List.takeWhile_cons_of_neg hc]
            rfl

/-- `skipWhiteSpace` does what its last loop alone would do. -/
theorem skipWhiteSpace_eq
    (err : String)
    (t : Text) :
    skipWhiteSpace err t =
      match t.dropWhile isWhiteSpace with
      | [] => parseError err
      | c :: t' => .ok (c, c :: t') := by
  have hblock : ∀ t : Text,
      skipWhiteSpaceLoop err
        (t.drop (if t.length ≥ 16 then jsonSkipWhiteSpace t (t.length - 15) else 0)) =
          match t.dropWhile isWhiteSpace with
          | [] => parseError err
          | c :: t' => .ok (c, c :: t') := by
    intro t
    rw [skipWhiteSpaceLoop_eq]
    by_cases hlength : t.length ≥ 16
    · rw [if_pos hlength, jsonSkipWhiteSpace, dropWhile_drop]
    · rw [if_neg hlength, List.drop_zero]
  cases t with
  | nil => rfl
  | cons c behind =>
      rw [skipWhiteSpace]
      by_cases hc : isWhiteSpace c = true
      · rw [if_neg (by simp [hc])]
        by_cases hblank : (c == 0x20) = true
        · rw [if_pos hblank]
          cases behind with
          | nil =>
              rw [List.dropWhile_cons_of_pos hc]
              rfl
          | cons c' behind =>
              by_cases hc' : isWhiteSpace c' = true
              · simp only [hc', Bool.not_true, Bool.false_eq_true, if_false]
                exact hblock _
              · rw [List.dropWhile_cons_of_pos hc, List.dropWhile_cons_of_neg hc']
                simp [hc']
        · rw [if_neg hblank]
          exact hblock _
      · rw [List.dropWhile_cons_of_neg hc]
        simp [hc]

theorem skipWhiteSpace_eq_ok
    {err : String}
    {t t' : Text}
    {i : UInt8} :
    skipWhiteSpace err t = .ok (i, t') ↔ t' = i :: t'.tail ∧ Next i t t'.tail := by
  rw [skipWhiteSpace_eq, Next]
  cases h : t.dropWhile isWhiteSpace with
  | nil =>
      constructor
      · intro h
        cases h
      · rintro ⟨_, h⟩
        cases h
  | cons c t'' =>
      constructor
      · intro h
        cases h
        exact ⟨rfl, rfl⟩
      · rintro ⟨hcons, htail⟩
        cases htail
        rw [hcons]
        rfl

theorem Next.skipWhiteSpace
    {i : UInt8}
    {t t' : Text}
    (h : Next i t t')
    (err : String) :
    skipWhiteSpace err t = .ok (i, i :: t') :=
  skipWhiteSpace_eq_ok.mpr ⟨rfl, h⟩

/-! ## The grammar -/

section Grammar

variable {D : Type} [ParserDouble D]

/-- What a piece of text may stand for. -/
inductive Part (D : Type) where
  | value (v : Document D)
  | elements (elements : List (Document D))
  | members (members : List (Text × Document D))

/--
The text `t` begins with a part, and `t'` comes behind.  The comma stands between two
elements only.
-/
inductive Reads : Text → Part D → Text → Prop
  | nullToken
      {t t' : Text}
      (h : Next 0x6e t (bytes "ull" ++ t')) :
      Reads t (.value .null) t'
  | trueToken
      {t t' : Text}
      (h : Next 0x74 t (bytes "rue" ++ t')) :
      Reads t (.value (.bool true)) t'
  | falseToken
      {t t' : Text}
      (h : Next 0x66 t (bytes "alse" ++ t')) :
      Reads t (.value (.bool false)) t'
  | number
      {t t' : Text}
      {n : Numeral}
      {value : D}
      (h : t.dropWhile isWhiteSpace = n.text ++ t')
      (hend : n.EndsBefore t')
      (hvalue : n.Denotes t' value) :
      Reads t (.value (.number value)) t'
  | string
      {t t1 t' : Text}
      {value : Text}
      (hopen : Next 0x22 t t1)
      (h : Characters t1 value t') :
      Reads t (.value (.string value)) t'
  | emptyArray
      {t t1 t' : Text}
      (hopen : Next 0x5b t t1)
      (hclose : Next 0x5d t1 t') :
      Reads t (.value (.array [])) t'
  | array
      {t t1 t' : Text}
      {elements : List (Document D)}
      (hopen : Next 0x5b t t1)
      (h : Reads t1 (.elements elements) t') :
      Reads t (.value (.array elements)) t'
  | emptyObject
      {t t1 t' : Text}
      (hopen : Next 0x7b t t1)
      (hclose : Next 0x7d t1 t') :
      Reads t (.value (.object [])) t'
  | object
      {t t1 t' : Text}
      {members : List (Text × Document D)}
      (hopen : Next 0x7b t t1)
      (h : Reads t1 (.members members) t') :
      Reads t (.value (.object members)) t'
  | lastElement
      {t t1 t' : Text}
      {element : Document D}
      (h : Reads t (.value element) t1)
      (hclose : Next 0x5d t1 t') :
      Reads t (.elements [element]) t'
  | element
      {t t1 t2 t' : Text}
      {element : Document D}
      {elements : List (Document D)}
      (h : Reads t (.value element) t1)
      (hcomma : Next 0x2c t1 t2)
      (helements : Reads t2 (.elements elements) t') :
      Reads t (.elements (element :: elements)) t'
  | lastMember
      {t t1 t2 t3 t4 t' : Text}
      {key : Text}
      {value : Document D}
      (hopen : Next 0x22 t t1)
      (hkey : Characters t1 key t2)
      (hcolon : Next 0x3a t2 t3)
      (h : Reads t3 (.value value) t4)
      (hclose : Next 0x7d t4 t') :
      Reads t (.members [(key, value)]) t'
  | member
      {t t1 t2 t3 t4 t5 t' : Text}
      {key : Text}
      {value : Document D}
      {members : List (Text × Document D)}
      (hopen : Next 0x22 t t1)
      (hkey : Characters t1 key t2)
      (hcolon : Next 0x3a t2 t3)
      (h : Reads t3 (.value value) t4)
      (hcomma : Next 0x2c t4 t5)
      (hmembers : Reads t5 (.members members) t') :
      Reads t (.members ((key, value) :: members)) t'

/-- Every part has a first byte. -/
theorem Reads.length
    {t t' : Text}
    {p : Part D}
    (h : Reads t p t') :
    t'.length < t.length := by
  induction h with
  | nullToken h | trueToken h | falseToken h =>
      have := h.length
      rw [List.length_append] at this
      omega
  | @number t _ n _ h _ _ =>
      have hle := (List.dropWhile_suffix isWhiteSpace (l := t)).length_le
      have := n.length_pos
      rw [h, List.length_append] at hle
      omega
  | string hopen h =>
      exact Nat.lt_trans h.length hopen.length
  | emptyArray hopen hclose | emptyObject hopen hclose =>
      exact Nat.lt_trans hclose.length hopen.length
  | array hopen _ ih | object hopen _ ih =>
      exact Nat.lt_trans ih hopen.length
  | lastElement _ hclose ih =>
      exact Nat.lt_trans hclose.length ih
  | element _ hcomma _ ih ihelements =>
      exact Nat.lt_trans ihelements (Nat.lt_trans hcomma.length ih)
  | lastMember hopen hkey hcolon _ hclose ih =>
      have := hopen.length
      have := hkey.length
      have := hcolon.length
      have := hclose.length
      omega
  | member hopen hkey hcolon _ hcomma _ ih ihmembers =>
      have := hopen.length
      have := hkey.length
      have := hcolon.length
      have := hcomma.length
      omega

/-- White space in front does not matter. -/
theorem Reads.of_dropWhile_eq
    {t t' s : Text}
    {p : Part D}
    (h : Reads t p t')
    (hs : s.dropWhile isWhiteSpace = t.dropWhile isWhiteSpace) :
    Reads s p t' := by
  induction h with
  | nullToken h => exact .nullToken (hs.trans h)
  | trueToken h => exact .trueToken (hs.trans h)
  | falseToken h => exact .falseToken (hs.trans h)
  | number h hend hvalue => exact .number (hs.trans h) hend hvalue
  | string hopen h => exact .string (hs.trans hopen) h
  | emptyArray hopen hclose => exact .emptyArray (hs.trans hopen) hclose
  | array hopen h => exact .array (hs.trans hopen) h
  | emptyObject hopen hclose => exact .emptyObject (hs.trans hopen) hclose
  | object hopen h => exact .object (hs.trans hopen) h
  | lastElement _ hclose ih => exact .lastElement (ih hs) hclose
  | element _ hcomma helements ih => exact .element (ih hs) hcomma helements
  | lastMember hopen hkey hcolon h hclose =>
      exact .lastMember (hs.trans hopen) hkey hcolon h hclose
  | member hopen hkey hcolon h hcomma hmembers =>
      exact .member (hs.trans hopen) hkey hcolon h hcomma hmembers

theorem Next.dropWhile_cons
    {i : UInt8}
    {t t' : Text}
    (h : Next i t t') :
    (i :: t').dropWhile isWhiteSpace = i :: t' := by
  exact List.dropWhile_cons_of_neg (by simp [h.not_isWhiteSpace])

theorem Reads.of_next
    {i : UInt8}
    {t t1 t' : Text}
    {p : Part D}
    (hnext : Next i t t1)
    (h : Reads (i :: t1) p t') :
    Reads t p t' :=
  h.of_dropWhile_eq (Eq.trans hnext hnext.dropWhile_cons.symm)

/-! ## Soundness -/

omit [ParserDouble D] in
theorem parseLiteral_eq_ok
    {letters t t' : Text}
    {what : String}
    {value v : Document D} :
    parseLiteral letters what value t = .ok (v, t') ↔ v = value ∧ t = letters ++ t' := by
  rw [parseLiteral]
  by_cases h : letters.isPrefixOf t = true
  · rw [if_pos h]
    obtain ⟨t'', rfl⟩ := List.isPrefixOf_iff_prefix.mp h
    rw [List.drop_left]
    constructor
    · intro h
      cases h
      exact ⟨rfl, rfl⟩
    · rintro ⟨rfl, h⟩
      rw [List.append_cancel_left h]
  · rw [if_neg h]
    constructor
    · intro h
      cases h
    · rintro ⟨_, rfl⟩
      exact absurd (List.isPrefixOf_iff_prefix.mpr (List.prefix_append _ _)) h

theorem parseElements_sound
    {parseJson : Text → Result (Document D × Text)}
    (hvalue : ∀ t v t', parseJson t = .ok (v, t') → Reads t (.value v) t')
    {fuel : Nat}
    {t t' : Text}
    {elements : List (Document D)}
    (h : parseElements parseJson fuel t = .ok (elements, t')) :
    Reads t (.elements elements) t' := by
  induction fuel generalizing t elements with
  | zero => cases h
  | succ fuel ih =>
      rw [parseElements] at h
      obtain ⟨⟨element, t1⟩, helement, h⟩ := Result.bind_eq_ok.mp h
      obtain ⟨⟨i, t2⟩, hi, h⟩ := Result.bind_eq_ok.mp h
      obtain ⟨_, hnext⟩ := skipWhiteSpace_eq_ok.mp hi
      have hreads := hvalue _ _ _ helement
      dsimp only at h
      by_cases hclose : (i == 0x5d) = true
      · rw [if_pos hclose] at h
        cases h
        rw [beq_iff_eq.mp hclose] at hnext
        exact .lastElement hreads hnext
      · rw [if_neg hclose] at h
        obtain ⟨_, hcomma, h⟩ := Result.bind_eq_ok.mp h
        obtain ⟨⟨elements', t3⟩, helements, h⟩ := Result.bind_eq_ok.mp h
        cases h
        rw [beq_iff_eq.mp (expect_eq_ok.mp hcomma)] at hnext
        exact .element hreads hnext (ih helements)

theorem parseMembers_sound
    {parseJson : Text → Result (Document D × Text)}
    (hvalue : ∀ t v t', parseJson t = .ok (v, t') → Reads t (.value v) t')
    {fuel : Nat}
    {i : UInt8}
    {t t1 t' : Text}
    {members : List (Text × Document D)}
    (hnext : Next i t t1)
    (h : parseMembers parseJson fuel i (i :: t1) = .ok (members, t')) :
    Reads t (.members members) t' := by
  induction fuel generalizing i t t1 members with
  | zero => cases h
  | succ fuel ih =>
      rw [parseMembers] at h
      obtain ⟨_, hopen, h⟩ := Result.bind_eq_ok.mp h
      obtain ⟨⟨key, t2⟩, hkey, h⟩ := Result.bind_eq_ok.mp h
      obtain ⟨⟨j, t3⟩, hj, h⟩ := Result.bind_eq_ok.mp h
      obtain ⟨_, hcolon, h⟩ := Result.bind_eq_ok.mp h
      obtain ⟨⟨value, t4⟩, hparse, h⟩ := Result.bind_eq_ok.mp h
      obtain ⟨⟨k, t5⟩, hk, h⟩ := Result.bind_eq_ok.mp h
      obtain ⟨_, hnextj⟩ := skipWhiteSpace_eq_ok.mp hj
      obtain ⟨_, hnextk⟩ := skipWhiteSpace_eq_ok.mp hk
      have hreads := hvalue _ _ _ hparse
      rw [beq_iff_eq.mp (expect_eq_ok.mp hopen)] at hnext
      rw [beq_iff_eq.mp (expect_eq_ok.mp hcolon)] at hnextj
      dsimp only at h
      by_cases hclose : (k == 0x7d) = true
      · rw [if_pos hclose] at h
        cases h
        rw [beq_iff_eq.mp hclose] at hnextk
        exact .lastMember hnext (parseString_eq_ok_iff.mp hkey) hnextj hreads hnextk
      · rw [if_neg hclose] at h
        obtain ⟨_, hcomma, h⟩ := Result.bind_eq_ok.mp h
        obtain ⟨⟨l, t6⟩, hl, h⟩ := Result.bind_eq_ok.mp h
        obtain ⟨⟨members', t7⟩, hmembers, h⟩ := Result.bind_eq_ok.mp h
        obtain ⟨ht6, hnextl⟩ := skipWhiteSpace_eq_ok.mp hl
        dsimp only at hmembers
        rw [ht6] at hmembers
        cases h
        rw [beq_iff_eq.mp (expect_eq_ok.mp hcomma)] at hnextk
        exact .member hnext (parseString_eq_ok_iff.mp hkey) hnextj hreads hnextk
          (ih hnextl hmembers)

theorem parseJson_sound
    {fuel : Nat}
    {t t' : Text}
    {v : Document D}
    (h : parseJson fuel t = .ok (v, t')) :
    Reads t (.value v) t' := by
  induction fuel generalizing t t' v with
  | zero => cases h
  | succ fuel ih =>
      have hvalue : ∀ t v t', parseJson fuel t = .ok (v, t') →
          Reads t (.value (v : Document D)) t' := fun _ _ _ => ih
      rw [parseJson] at h
      obtain ⟨⟨i, t1⟩, hi, h⟩ := Result.bind_eq_ok.mp h
      obtain ⟨ht1, hnext⟩ := skipWhiteSpace_eq_ok.mp hi
      dsimp only at h
      by_cases hbrace : (i == 0x7b) = true
      · rw [if_pos hbrace, parseObject] at h
        rw [beq_iff_eq.mp hbrace] at hnext
        obtain ⟨⟨j, t2⟩, hj, h⟩ := Result.bind_eq_ok.mp h
        obtain ⟨ht2, hnextj⟩ := skipWhiteSpace_eq_ok.mp hj
        dsimp only at h
        by_cases hclose : (j == 0x7d) = true
        · rw [if_pos hclose] at h
          cases h
          rw [beq_iff_eq.mp hclose] at hnextj
          exact .emptyObject hnext hnextj
        · rw [if_neg hclose] at h
          obtain ⟨⟨members, t3⟩, hmembers, h⟩ := Result.bind_eq_ok.mp h
          cases h
          rw [ht2] at hmembers
          exact .object hnext (parseMembers_sound hvalue hnextj hmembers)
      rw [if_neg hbrace] at h
      by_cases hbracket : (i == 0x5b) = true
      · rw [if_pos hbracket, parseArray] at h
        rw [beq_iff_eq.mp hbracket] at hnext
        obtain ⟨⟨j, t2⟩, hj, h⟩ := Result.bind_eq_ok.mp h
        obtain ⟨ht2, hnextj⟩ := skipWhiteSpace_eq_ok.mp hj
        dsimp only at h
        by_cases hclose : (j == 0x5d) = true
        · rw [if_pos hclose] at h
          cases h
          rw [beq_iff_eq.mp hclose] at hnextj
          exact .emptyArray hnext hnextj
        · rw [if_neg hclose] at h
          obtain ⟨⟨elements, t3⟩, helements, h⟩ := Result.bind_eq_ok.mp h
          cases h
          rw [ht2] at helements
          exact .array hnext (.of_next hnextj (parseElements_sound hvalue helements))
      rw [if_neg hbracket] at h
      by_cases htrue : (i == 0x74) = true
      · rw [if_pos htrue] at h
        obtain ⟨rfl, ht⟩ := parseLiteral_eq_ok.mp h
        rw [beq_iff_eq.mp htrue, ht] at hnext
        exact .trueToken hnext
      rw [if_neg htrue] at h
      by_cases hfalse : (i == 0x66) = true
      · rw [if_pos hfalse] at h
        obtain ⟨rfl, ht⟩ := parseLiteral_eq_ok.mp h
        rw [beq_iff_eq.mp hfalse, ht] at hnext
        exact .falseToken hnext
      rw [if_neg hfalse] at h
      by_cases hnull : (i == 0x6e) = true
      · rw [if_pos hnull] at h
        obtain ⟨rfl, ht⟩ := parseLiteral_eq_ok.mp h
        rw [beq_iff_eq.mp hnull, ht] at hnext
        exact .nullToken hnext
      rw [if_neg hnull] at h
      by_cases hquote : (i == 0x22) = true
      · rw [if_pos hquote] at h
        obtain ⟨⟨value, t2⟩, hvalue, h⟩ := Result.bind_eq_ok.mp h
        cases h
        rw [beq_iff_eq.mp hquote] at hnext
        exact .string hnext (parseString_eq_ok_iff.mp hvalue)
      rw [if_neg hquote] at h
      obtain ⟨⟨value, t2⟩, hvalue, h⟩ := Result.bind_eq_ok.mp h
      cases h
      rw [ht1, ← show t.dropWhile isWhiteSpace = i :: t1.tail from hnext] at hvalue
      obtain ⟨n, ht, hend, hvalue⟩ := parseNumber_eq_ok_iff.mp hvalue
      exact .number ht hend hvalue

/-! ## Completeness -/

/-- What the parser functions return for a part, given enough fuel. -/
def Parses : Text → Part D → Text → Prop
  | t, .value v, t' =>
      ∀ fuel, t.length ≤ fuel + t'.length → parseJson fuel t = .ok (v, t')
  | t, .elements elements, t' =>
      ∀ fuel rounds, t.length ≤ fuel + t'.length → t.length ≤ rounds + t'.length →
        parseElements (parseJson fuel) rounds t = .ok (elements, t')
  | t, .members members, t' =>
      ∀ fuel rounds, t.length ≤ fuel + t'.length → t.length ≤ rounds + t'.length →
        parseMembers (parseJson fuel) rounds 0x22 (t.dropWhile isWhiteSpace) =
          .ok (members, t')

theorem Numeral.head
    (n : Numeral)
    (t : Text) :
    ∃ i t1, n.text ++ t = i :: t1 ∧ (i = 0x2d ∨ isDigit i = true) := by
  obtain ⟨negative, integer, _, r⟩ := n
  cases negative with
  | true => exact ⟨0x2d, integer.text ++ r.text ++ t, rfl, .inl rfl⟩
  | false =>
      obtain ⟨i, l, hinteger⟩ := List.exists_cons_of_ne_nil integer.ne_nil
      refine ⟨i, l ++ r.text ++ t, ?_, .inr (integer.isDigit i ?_)⟩
      · rw [Numeral.text, hinteger]
        rfl
      · rw [hinteger]
        exact List.mem_cons_self

/-- No other token begins with the first byte of a number. -/
theorem ne_of_number_head
    {i j : UInt8}
    (hi : i = 0x2d ∨ isDigit i = true)
    (hj : j.toNat < 0x2d ∨ 0x39 < j.toNat) :
    (i == j) = false := by
  rw [beq_eq_false_iff_ne]
  rintro rfl
  rcases hi with rfl | hdigit
  · rcases hj with h | h
    · exact absurd h (by decide)
    · exact absurd h (by decide)
  · have := isDigit_iff.mp hdigit
    omega

theorem Reads.next
    {t t' : Text}
    {p : Part D}
    (h : Reads t p t') :
    ∃ i t1, Next i t t1 ∧ i ≠ 0x5d ∧ i < 0x80 := by
  induction h with
  | nullToken h => exact ⟨_, _, h, by decide⟩
  | trueToken h => exact ⟨_, _, h, by decide⟩
  | falseToken h => exact ⟨_, _, h, by decide⟩
  | @number t t' n _ h _ _ =>
      obtain ⟨i, t1, ht, hi⟩ := n.head t'
      refine ⟨i, t1, h.trans ht, ?_, ?_⟩
      · exact beq_eq_false_iff_ne.mp (ne_of_number_head hi (by decide))
      · rcases hi with rfl | hdigit
        · decide
        · have := isDigit_iff.mp hdigit
          rw [UInt8.lt_iff_toNat_lt]
          change i.toNat < 128
          omega
  | string hopen _ => exact ⟨_, _, hopen, by decide⟩
  | emptyArray hopen _ => exact ⟨_, _, hopen, by decide⟩
  | array hopen _ _ => exact ⟨_, _, hopen, by decide⟩
  | emptyObject hopen _ => exact ⟨_, _, hopen, by decide⟩
  | object hopen _ _ => exact ⟨_, _, hopen, by decide⟩
  | lastElement _ _ ih => exact ih
  | element _ _ _ ih _ => exact ih
  | lastMember hopen _ _ _ _ _ => exact ⟨_, _, hopen, by decide⟩
  | member hopen _ _ _ _ _ _ _ => exact ⟨_, _, hopen, by decide⟩

theorem Reads.next_member
    {t t' : Text}
    {members : List (Text × Document D)}
    (h : Reads t (.members members) t') :
    ∃ t1, Next 0x22 t t1 := by
  cases h with
  | lastMember hopen _ _ _ _ => exact ⟨_, hopen⟩
  | member hopen _ _ _ _ _ => exact ⟨_, hopen⟩

theorem parseJson_of_next
    {i : UInt8}
    {t t1 : Text}
    (h : Next i t t1)
    (fuel : Nat) :
    (parseJson fuel (i :: t1) : Result (Document D × Text)) = parseJson fuel t := by
  cases fuel with
  | zero => rfl
  | succ fuel =>
      have hself : Next i (i :: t1) t1 := h.dropWhile_cons
      rw [parseJson, parseJson, h.skipWhiteSpace, hself.skipWhiteSpace]

theorem parseElements_of_next
    {i : UInt8}
    {t t1 : Text}
    (h : Next i t t1)
    (fuel rounds : Nat) :
    (parseElements (parseJson fuel) rounds (i :: t1) :
      Result (List (Document D) × Text)) = parseElements (parseJson fuel) rounds t := by
  cases rounds with
  | zero => rfl
  | succ rounds => rw [parseElements, parseElements, parseJson_of_next h]

/-- The fuel of a value that consumes something is no zero. -/
theorem exists_eq_succ
    {fuel : Nat}
    {t t' : Text}
    (hfuel : t.length ≤ fuel + t'.length)
    (hlength : t'.length < t.length) :
    ∃ f, fuel = f + 1 := by
  cases fuel with
  | zero =>
      rw [Nat.zero_add] at hfuel
      exact absurd hlength (Nat.not_lt.mpr hfuel)
  | succ f => exact ⟨f, rfl⟩

theorem parses_number
    {t t' : Text}
    {n : Numeral}
    {value : D}
    (h : t.dropWhile isWhiteSpace = n.text ++ t')
    (hend : n.EndsBefore t')
    (hvalue : n.Denotes t' value) :
    Parses t (.value (.number value)) t' := by
  intro fuel hfuel
  obtain ⟨fuel, rfl⟩ := exists_eq_succ hfuel (Reads.number h hend hvalue).length
  obtain ⟨i, t1, ht, hi⟩ := n.head t'
  have hnext : Next i t t1 := h.trans ht
  have hparse := parseNumber_eq_ok_iff.mpr ⟨n, rfl, hend, hvalue⟩
  rw [ht] at hparse
  have hne : ∀ j : UInt8, j.toNat < 0x2d ∨ 0x39 < j.toNat → (i == j) = false :=
    fun j => ne_of_number_head hi
  rw [parseJson, hnext.skipWhiteSpace, Result.ok_bind]
  simp only [hne 0x7b (by decide), hne 0x5b (by decide), hne 0x74 (by decide),
    hne 0x66 (by decide), hne 0x6e (by decide), hne 0x22 (by decide),
    Bool.false_eq_true, if_false, hparse, Result.ok_bind, Result.pure_eq_ok]

theorem parses_string
    {t t1 t' value : Text}
    (hopen : Next 0x22 t t1)
    (h : Characters t1 value t') :
    Parses t (.value (.string value : Document D)) t' := by
  intro fuel hfuel
  obtain ⟨fuel, rfl⟩ := exists_eq_succ hfuel (Reads.string (D := D) hopen h).length
  rw [parseJson, hopen.skipWhiteSpace]
  change (parseString _ _ >>= _) = _
  rw [List.tail_cons, parseString_eq_ok_iff.mpr h]
  rfl

theorem parses_array
    {t t1 t' : Text}
    {elements : List (Document D)}
    (hopen : Next 0x5b t t1)
    (h : Reads t1 (.elements elements) t')
    (ih : Parses t1 (.elements elements) t') :
    Parses t (.value (.array elements)) t' := by
  intro fuel hfuel
  obtain ⟨fuel, rfl⟩ := exists_eq_succ hfuel (Reads.array hopen h).length
  have hlength := hopen.length
  obtain ⟨i, t2, hnext, hi, _⟩ := h.next
  rw [parseJson, hopen.skipWhiteSpace]
  change parseArray _ _ _ = _
  rw [List.tail_cons, parseArray, hnext.skipWhiteSpace, Result.ok_bind]
  simp only [beq_eq_false_iff_ne.mpr hi, Bool.false_eq_true, if_false,
    parseElements_of_next hnext]
  rw [ih fuel fuel (by omega) (by omega)]
  rfl

theorem parses_object
    {t t1 t' : Text}
    {members : List (Text × Document D)}
    (hopen : Next 0x7b t t1)
    (h : Reads t1 (.members members) t')
    (ih : Parses t1 (.members members) t') :
    Parses t (.value (.object members)) t' := by
  intro fuel hfuel
  obtain ⟨fuel, rfl⟩ := exists_eq_succ hfuel (Reads.object hopen h).length
  have hlength := hopen.length
  obtain ⟨t2, hnext⟩ := h.next_member
  have hmembers := ih fuel fuel (by omega) (by omega)
  rw [show t1.dropWhile isWhiteSpace = 0x22 :: t2 from hnext] at hmembers
  rw [parseJson, hopen.skipWhiteSpace]
  change parseObject _ _ _ = _
  rw [List.tail_cons, parseObject, hnext.skipWhiteSpace]
  change (parseMembers _ _ _ _ >>= _) = _
  rw [hmembers]
  rfl

theorem parses_lastElement
    {t t1 t' : Text}
    {element : Document D}
    (h : Reads t (.value element) t1)
    (hclose : Next 0x5d t1 t')
    (ih : Parses t (.value element) t1) :
    Parses t (.elements [element]) t' := by
  intro fuel rounds hfuel hrounds
  obtain ⟨rounds, rfl⟩ := exists_eq_succ hrounds (Reads.lastElement h hclose).length
  have := hclose.length
  rw [parseElements, ih fuel (by omega), Result.ok_bind]
  dsimp only
  rw [hclose.skipWhiteSpace]
  rfl

theorem parses_element
    {t t1 t2 t' : Text}
    {element : Document D}
    {elements : List (Document D)}
    (h : Reads t (.value element) t1)
    (hcomma : Next 0x2c t1 t2)
    (helements : Reads t2 (.elements elements) t')
    (ih : Parses t (.value element) t1)
    (ihelements : Parses t2 (.elements elements) t') :
    Parses t (.elements (element :: elements)) t' := by
  intro fuel rounds hfuel hrounds
  obtain ⟨rounds, rfl⟩ :=
    exists_eq_succ hrounds (Reads.element h hcomma helements).length
  have := h.length
  have := hcomma.length
  have := helements.length
  rw [parseElements, ih fuel (by omega), Result.ok_bind]
  dsimp only
  rw [hcomma.skipWhiteSpace]
  change (parseElements _ _ _ >>= _) = _
  rw [List.tail_cons, ihelements fuel rounds (by omega) (by omega)]
  rfl

/-- A member up to the byte behind its value, which decides how the loop goes on. -/
theorem parseMembers_of_member
    {i : UInt8}
    {t t1 t2 t3 t4 t5 key : Text}
    {value : Document D}
    {fuel : Nat}
    (hopen : Next 0x22 t t1)
    (hkey : Characters t1 key t2)
    (hcolon : Next 0x3a t2 t3)
    (hvalue : parseJson fuel t3 = .ok (value, t4))
    (hnext : Next i t4 t5)
    (rounds : Nat) :
    parseMembers (parseJson fuel) (rounds + 1) 0x22 (t.dropWhile isWhiteSpace) = (do
      if i == 0x7d then return ([(key, value)], t5)
      expect (i == 0x2c) "Expecting ',' or '\x7d'"
      let (i, t) ← skipWhiteSpace "Expecting '\"' or '\x7d'" t5
      let (members, t) ← parseMembers (parseJson fuel) rounds i t
      return ((key, value) :: members, t)) := by
  rw [parseMembers, hopen.tail]
  change (parseString _ _ >>= _) = _
  rw [parseString_eq_ok_iff.mpr hkey, Result.ok_bind]
  dsimp only
  rw [hcolon.skipWhiteSpace]
  change (parseJson _ _ >>= _) = _
  rw [List.tail_cons, hvalue, Result.ok_bind]
  dsimp only
  rw [hnext.skipWhiteSpace]
  rfl

theorem parses_lastMember
    {t t1 t2 t3 t4 t' key : Text}
    {value : Document D}
    (hopen : Next 0x22 t t1)
    (hkey : Characters t1 key t2)
    (hcolon : Next 0x3a t2 t3)
    (h : Reads t3 (.value value) t4)
    (hclose : Next 0x7d t4 t')
    (ih : Parses t3 (.value value) t4) :
    Parses t (.members [(key, value)]) t' := by
  intro fuel rounds hfuel hrounds
  obtain ⟨rounds, rfl⟩ :=
    exists_eq_succ hrounds (Reads.lastMember hopen hkey hcolon h hclose).length
  have := hopen.length
  have := hkey.length
  have := hcolon.length
  have := hclose.length
  rw [parseMembers_of_member hopen hkey hcolon (ih fuel (by omega)) hclose]
  rfl

theorem parses_member
    {t t1 t2 t3 t4 t5 t' key : Text}
    {value : Document D}
    {members : List (Text × Document D)}
    (hopen : Next 0x22 t t1)
    (hkey : Characters t1 key t2)
    (hcolon : Next 0x3a t2 t3)
    (h : Reads t3 (.value value) t4)
    (hcomma : Next 0x2c t4 t5)
    (hmembers : Reads t5 (.members members) t')
    (ih : Parses t3 (.value value) t4)
    (ihmembers : Parses t5 (.members members) t') :
    Parses t (.members ((key, value) :: members)) t' := by
  intro fuel rounds hfuel hrounds
  obtain ⟨rounds, rfl⟩ := exists_eq_succ hrounds
    (Reads.member hopen hkey hcolon h hcomma hmembers).length
  have := hopen.length
  have := hkey.length
  have := hcolon.length
  have := h.length
  have := hcomma.length
  have := hmembers.length
  obtain ⟨t6, hnext⟩ := hmembers.next_member
  have hbehind := ihmembers fuel rounds (by omega) (by omega)
  rw [show t5.dropWhile isWhiteSpace = 0x22 :: t6 from hnext] at hbehind
  rw [parseMembers_of_member hopen hkey hcolon (ih fuel (by omega)) hcomma]
  change (skipWhiteSpace _ _ >>= _) = _
  rw [hnext.skipWhiteSpace]
  change (parseMembers _ _ _ _ >>= _) = _
  rw [hbehind]
  rfl

theorem Reads.parses
    {t t' : Text}
    {p : Part D}
    (h : Reads t p t') :
    Parses t p t' := by
  induction h with
  | nullToken h =>
      intro fuel hfuel
      obtain ⟨fuel, rfl⟩ := exists_eq_succ hfuel (Reads.nullToken (D := D) h).length
      rw [parseJson, h.skipWhiteSpace]
      exact parseLiteral_eq_ok.mpr ⟨rfl, rfl⟩
  | trueToken h =>
      intro fuel hfuel
      obtain ⟨fuel, rfl⟩ := exists_eq_succ hfuel (Reads.trueToken (D := D) h).length
      rw [parseJson, h.skipWhiteSpace]
      exact parseLiteral_eq_ok.mpr ⟨rfl, rfl⟩
  | falseToken h =>
      intro fuel hfuel
      obtain ⟨fuel, rfl⟩ := exists_eq_succ hfuel (Reads.falseToken (D := D) h).length
      rw [parseJson, h.skipWhiteSpace]
      exact parseLiteral_eq_ok.mpr ⟨rfl, rfl⟩
  | number h hend hvalue => exact parses_number h hend hvalue
  | string hopen h => exact parses_string hopen h
  | emptyArray hopen hclose =>
      intro fuel hfuel
      obtain ⟨fuel, rfl⟩ := exists_eq_succ hfuel (Reads.emptyArray (D := D) hopen hclose).length
      rw [parseJson, hopen.skipWhiteSpace]
      change parseArray _ _ _ = _
      rw [List.tail_cons, parseArray, hclose.skipWhiteSpace]
      rfl
  | array hopen h ih => exact parses_array hopen h ih
  | emptyObject hopen hclose =>
      intro fuel hfuel
      obtain ⟨fuel, rfl⟩ := exists_eq_succ hfuel (Reads.emptyObject (D := D) hopen hclose).length
      rw [parseJson, hopen.skipWhiteSpace]
      change parseObject _ _ _ = _
      rw [List.tail_cons, parseObject, hclose.skipWhiteSpace]
      rfl
  | object hopen h ih => exact parses_object hopen h ih
  | lastElement h hclose ih => exact parses_lastElement h hclose ih
  | element h hcomma helements ih ihelements =>
      exact parses_element h hcomma helements ih ihelements
  | lastMember hopen hkey hcolon h hclose ih =>
      exact parses_lastMember hopen hkey hcolon h hclose ih
  | member hopen hkey hcolon h hcomma hmembers ih ihmembers =>
      exact parses_member hopen hkey hcolon h hcomma hmembers ih ihmembers

theorem Reads.parseJson
    {t t' : Text}
    {v : Document D}
    (h : Reads t (.value v) t') :
    parseJson (t.length + 1) t = .ok (v, t') := by
  apply h.parses
  omega

/-- `parse` skips a byte order mark. -/
def withoutBom (t : Text) : Text :=
  if (bytes "\uFEFF").isPrefixOf t then t.drop 3 else t

/-! ## The fuel -/

namespace Result

/-- The computation does not run out of fuel. -/
def Fueled {α : Type} (x : Result α) : Prop :=
  x ≠ .error .outOfFuel

theorem fueled_ok
    {α : Type}
    (a : α) :
    Fueled (.ok a) := by
  intro h
  cases h

theorem fueled_parseError
    {α : Type}
    (what : String) :
    Fueled (parseError what : Result α) := by
  intro h
  cases h

theorem Fueled.bind
    {α β : Type}
    {x : Result α}
    {f : α → Result β}
    (hx : x.Fueled)
    (hf : ∀ a, x = .ok a → (f a).Fueled) :
    (x >>= f).Fueled := by
  cases x with
  | error e =>
      intro h
      cases h
      exact hx rfl
  | ok a => exact hf a rfl

end Result

open Result (Fueled fueled_ok fueled_parseError)

theorem fueled_expect
    (condition : Bool)
    (what : String) :
    Fueled (expect condition what) := by
  cases condition with
  | false => exact fueled_parseError _
  | true => exact fueled_ok _

theorem fueled_getOneOrThrow
    (what : String)
    (t : Text) :
    Fueled (getOneOrThrow what t) := by
  cases t with
  | nil => exact fueled_parseError _
  | cons i t => exact fueled_ok _

theorem fueled_skipWhiteSpace
    (err : String)
    (t : Text) :
    Fueled (skipWhiteSpace err t) := by
  rw [skipWhiteSpace_eq]
  split
  · exact fueled_parseError _
  · exact fueled_ok _

theorem fueled_addDigit
    (value : ParsedNumber D)
    (i : UInt8) :
    Fueled (value.addDigit i) := by
  rw [ParsedNumber.addDigit]
  dsimp only
  split_ifs
  all_goals
    intro h
    cases h

theorem fueled_scanDigits
    (value : ParsedNumber D)
    (t : Text) :
    Fueled (scanDigits value t) := by
  induction t generalizing value with
  | nil => exact fueled_ok _
  | cons i t ih =>
      rw [scanDigits]
      split
      · exact (fueled_addDigit value i).bind fun value _ => ih value
      · exact fueled_ok _

theorem fueled_skipSign
    (isSign : Bool)
    (i : UInt8)
    (t : Text) :
    Fueled (skipSign isSign i t) := by
  cases isSign with
  | false => exact fueled_ok _
  | true => exact fueled_getOneOrThrow _ _

theorem fueled_parseExponent
    (start : Text)
    (fractionalPart : D)
    (t : Text) :
    Fueled (parseExponent start fractionalPart t) := by
  rw [parseExponent]
  refine (fueled_getOneOrThrow _ _).bind fun _ _ => ?_
  refine (fueled_skipSign _ _ _).bind fun _ _ => ?_
  refine (fueled_expect _ _).bind fun _ _ => ?_
  refine (fueled_scanDigits _ _).bind fun _ _ => ?_
  dsimp only
  generalize Double.isFinite (D := D) _ = finite
  cases finite with
  | false =>
      intro h
      cases h
  | true => exact fueled_ok _

theorem fueled_parseFraction
    (start : Text)
    (sign : D → D)
    (value : D)
    (t : Text) :
    Fueled (parseFraction start sign value t) := by
  rw [parseFraction]
  refine (fueled_getOneOrThrow _ _).bind fun _ _ => ?_
  refine (fueled_expect _ _).bind fun _ _ => ?_
  dsimp only
  split
  · exact fueled_ok _
  · split
    · exact fueled_parseExponent _ _ _
    · exact fueled_ok _

theorem fueled_parseRest
    (start : Text)
    (negative : Bool)
    (value : ParsedNumber D)
    (t : Text) :
    Fueled (parseRest start negative value t) := by
  cases t with
  | nil => exact fueled_ok _
  | cons i t =>
      rw [parseRest]
      split
      · exact fueled_parseFraction _ _ _ _
      · split
        · exact fueled_parseExponent _ _ _
        · exact fueled_ok _

theorem fueled_parseNumber
    (t : Text) :
    Fueled (parseNumber t : Result (D × Text)) := by
  rw [parseNumber]
  refine (fueled_getOneOrThrow _ _).bind fun _ _ => ?_
  refine (fueled_skipSign _ _ _).bind fun _ _ => ?_
  refine (fueled_expect _ _).bind fun _ _ => ?_
  refine Fueled.bind ?_ fun _ _ => fueled_parseRest _ _ _ _
  rw [scanInteger]
  split
  · exact fueled_scanDigits _ _
  · exact fueled_ok _

theorem fueled_parseHex
    (j v : Nat)
    (t : Text) :
    Fueled (parseHex j v t) := by
  induction j generalizing v t with
  | zero => exact fueled_ok _
  | succ j ih =>
      cases t with
      | nil => exact fueled_parseError _
      | cons i t =>
          rw [parseHex]
          split
          · exact ih _ _
          · exact fueled_parseError _

theorem fueled_parseEscape
    (s : StringState)
    (t : Text) :
    Fueled (parseEscape s t) := by
  cases t with
  | nil => exact fueled_parseError _
  | cons i t =>
      rw [parseEscape]
      split
      · exact fueled_ok _
      · split
        · exact (fueled_parseHex _ _ _).bind fun _ _ => fueled_ok _
        · exact fueled_parseError _

theorem fueled_parseString
    (s : StringState)
    (t : Text) :
    Fueled (parseString s t) := by
  induction hn : t.length using Nat.strongRecOn generalizing s t with
  | ind n ih =>
      have hlength : (t.drop (copyCount t)).length ≤ n := by
        rw [List.length_drop, hn]
        exact Nat.sub_le _ _
      rw [parseString_eq]
      generalize t.drop (copyCount t) = t1 at hlength
      cases t1 with
      | nil => exact fueled_parseError _
      | cons i behind =>
          rw [List.length_cons] at hlength
          dsimp only
          split
          · exact fueled_ok _
          · split
            · refine (fueled_parseEscape _ _).bind fun p hp => ?_
              have := parseEscape_length hp
              exact ih p.2.length (by omega) p.1 p.2 rfl
            · split
              · intro h
                cases h
              · exact ih behind.length (by omega) _ _ rfl

theorem fueled_parseLiteral
    {α : Type}
    (letters : Text)
    (what : String)
    (value : α)
    (t : Text) :
    Fueled (parseLiteral letters what value t) := by
  rw [parseLiteral]
  split
  · exact fueled_ok _
  · exact fueled_parseError _

/-- One unit of fuel for every byte is enough for the elements of an array. -/
theorem fueled_parseElements
    {fuel rounds : Nat}
    {t : Text}
    (hvalue : ∀ t : Text, t.length < fuel →
      Fueled (parseJson fuel t : Result (Document D × Text)))
    (hfuel : t.length < fuel)
    (hrounds : t.length < rounds) :
    Fueled (parseElements (parseJson fuel) rounds t : Result (List (Document D) × Text)) := by
  induction rounds generalizing t with
  | zero => exact absurd hrounds (Nat.not_lt_zero _)
  | succ rounds ih =>
      rw [parseElements]
      refine (hvalue t hfuel).bind fun p hp => ?_
      refine (fueled_skipWhiteSpace _ _).bind fun q hq => ?_
      have h1 := (parseJson_sound hp).length
      have h2 := (skipWhiteSpace_eq_ok.mp hq).2.length
      dsimp only
      split
      · exact fueled_ok _
      · refine (fueled_expect _ _).bind fun _ _ => ?_
        refine Fueled.bind ?_ fun _ _ => fueled_ok _
        exact ih (by omega) (by omega)

theorem fueled_parseMembers
    {fuel rounds : Nat}
    {i : UInt8}
    {t : Text}
    (hvalue : ∀ t : Text, t.length < fuel →
      Fueled (parseJson fuel t : Result (Document D × Text)))
    (hfuel : t.length < fuel)
    (hrounds : t.length < rounds) :
    Fueled (parseMembers (parseJson fuel) rounds i t :
      Result (List (Text × Document D) × Text)) := by
  induction rounds generalizing i t with
  | zero => exact absurd hrounds (Nat.not_lt_zero _)
  | succ rounds ih =>
      rw [parseMembers]
      refine (fueled_expect _ _).bind fun _ _ => ?_
      refine (fueled_parseString _ _).bind fun p hp => ?_
      refine (fueled_skipWhiteSpace _ _).bind fun q hq => ?_
      refine (fueled_expect _ _).bind fun _ _ => ?_
      have h1 := (parseString_eq_ok_iff.mp hp).length
      have h2 := (skipWhiteSpace_eq_ok.mp hq).2.length
      have h3 : t.tail.length ≤ t.length := by
        rw [List.length_tail]
        omega
      refine (hvalue _ (by omega)).bind fun r hr => ?_
      refine (fueled_skipWhiteSpace _ _).bind fun u hu => ?_
      have h4 := (parseJson_sound hr).length
      have h5 := (skipWhiteSpace_eq_ok.mp hu).2.length
      dsimp only
      split
      · exact fueled_ok _
      · refine (fueled_expect _ _).bind fun _ _ => ?_
        refine (fueled_skipWhiteSpace _ _).bind fun w hw => ?_
        have h6 := (skipWhiteSpace_eq_ok.mp hw).2.length
        have h7 := congrArg List.length (skipWhiteSpace_eq_ok.mp hw).1
        rw [List.length_cons] at h7
        refine Fueled.bind ?_ fun _ _ => fueled_ok _
        exact ih (by omega) (by omega)

theorem fueled_parseJson
    {fuel : Nat}
    {t : Text}
    (hfuel : t.length < fuel) :
    Fueled (parseJson fuel t : Result (Document D × Text)) := by
  induction fuel generalizing t with
  | zero => exact absurd hfuel (Nat.not_lt_zero _)
  | succ fuel ih =>
      rw [parseJson]
      refine (fueled_skipWhiteSpace _ _).bind fun p hp => ?_
      have h1 := (skipWhiteSpace_eq_ok.mp hp).2.length
      dsimp only
      split
      · rw [parseObject]
        refine (fueled_skipWhiteSpace _ _).bind fun q hq => ?_
        have h2 := (skipWhiteSpace_eq_ok.mp hq).2.length
        have h3 := congrArg List.length (skipWhiteSpace_eq_ok.mp hq).1
        rw [List.length_cons] at h3
        dsimp only
        split
        · exact fueled_ok _
        · refine Fueled.bind ?_ fun _ _ => fueled_ok _
          exact fueled_parseMembers (fun t ht => ih ht) (by omega) (by omega)
      split
      · rw [parseArray]
        refine (fueled_skipWhiteSpace _ _).bind fun q hq => ?_
        have h2 := (skipWhiteSpace_eq_ok.mp hq).2.length
        have h3 := congrArg List.length (skipWhiteSpace_eq_ok.mp hq).1
        rw [List.length_cons] at h3
        dsimp only
        split
        · exact fueled_ok _
        · refine Fueled.bind ?_ fun _ _ => fueled_ok _
          exact fueled_parseElements (fun t ht => ih ht) (by omega) (by omega)
      split
      · exact fueled_parseLiteral _ _ _ _
      split
      · exact fueled_parseLiteral _ _ _ _
      split
      · exact fueled_parseLiteral _ _ _ _
      split
      · exact (fueled_parseString _ _).bind fun _ _ => fueled_ok _
      · exact (fueled_parseNumber _).bind fun _ _ => fueled_ok _

/-- Whatever `parse` throws, the parser of the source throws. -/
theorem fueled_parse
    (t : Text) :
    Fueled (parse t : Result (Document D)) := by
  rw [parse]
  refine (fueled_parseJson (Nat.lt_succ_self _)).bind fun _ _ => ?_
  exact (fueled_expect _ _).bind fun _ _ => fueled_ok _

end Grammar

end Parser

end AgencyNode
