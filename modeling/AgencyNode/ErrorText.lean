import AgencyNode.AccessPath
import AgencyNode.HelperStrings
import AgencyNode.JsonRoundtrip

/-!
# The text of an error

`error::as_string` prints the fields, the indices and the annotations of the
backtrace in front of the message.  Field names that are not identifiers are
printed as JSON strings, so that the text can be taken apart again: it tells the
path, the annotations and the message of the error, as long as a message behind
an annotation does not read like one more part of the path.
-/

namespace AgencyNode
namespace Deserialize

open Lib
open FlatStore (bytes)

/-! ## errors.h -/

/-- `is_alpha` of `is_identifier`. -/
def isAlpha (c : UInt8) : Bool :=
  (0x61 ≤ c && c ≤ 0x7a) || (0x41 ≤ c && c ≤ 0x5a) || c == 0x24 || c == 0x5f

/-- `is_num` of `is_identifier`. -/
def isNum (c : UInt8) : Bool :=
  0x30 ≤ c && c ≤ 0x39

/-- The loop of `is_identifier`. -/
def isIdentifierLoop (first : Bool) : Text → Bool
  | [] => true
  | c :: name =>
      if !isAlpha c && (first || !isNum c) then false
      else isIdentifierLoop false name

/-- `error::is_identifier`, which the empty name is as well. -/
def isIdentifier (name : String) : Bool :=
  isIdentifierLoop true (bytes name)

namespace DeserializeError

/-- The visitor of `as_string`, on `result` and `was_terminated`. -/
def printEntry (r : String × Bool) : AccessType → String × Bool
  | .fieldName field =>
      let result := if r.2 then r.1 ++ " at " else r.1
      if isIdentifier field then (result ++ "." ++ field, false)
      else (result ++ "[" ++ Json.dumpString field ++ "]", false)
  | .index index =>
      let result := if r.2 then r.1 ++ " at " else r.1
      (result ++ "[" ++ stdToString index ++ "]", false)
  | .keyValue key value =>
      (r.1 ++ " with " ++ Json.dumpString key ++ " == " ++ Json.dumpString value ++
        ":", true)
  | .hint _ => r

/-- `error::as_string`. -/
def asString (e : DeserializeError) : String :=
  let r := e.backtrace.reverse.foldl printEntry ("", false)
  let result := if e.backtrace.isEmpty then r.1 ++ "(top-level)" else r.1
  let result := if r.2 then result else result ++ ":"
  result ++ " " ++ e.message

end DeserializeError

/-! ## What is printed -/

/-- The part of a backtrace that is printed. -/
inductive Mark where
  | entry (x : Entry)
  | keyValue (key value : String)
deriving DecidableEq, Repr

/-- Hints are not printed. -/
def AccessType.mark : AccessType → Option Mark
  | .fieldName field => some (.entry (.field field))
  | .index i => some (.entry (.index i))
  | .keyValue key value => some (.keyValue key value)
  | .hint _ => none

/-- The bytes printed for an entry of the path. -/
def entryText : Entry → Text
  | .field name =>
      if isIdentifier name then 0x2e :: bytes name
      else 0x5b :: (bytes (Json.dumpString name) ++ [0x5d])
  | .index i => 0x5b :: (bytes (stdToString i) ++ [0x5d])

/-- The bytes printed for the marks and the message behind them. -/
def marksText (terminated : Bool) : List Mark → Text → Text
  | [], m => (if terminated then [] else [0x3a]) ++ 0x20 :: m
  | .entry x :: marks, m =>
      (if terminated then bytes " at " else []) ++
        (entryText x ++ marksText false marks m)
  | .keyValue key value :: marks, m =>
      bytes " with " ++ (bytes (Json.dumpString key) ++ (bytes " == " ++
        (bytes (Json.dumpString value) ++ 0x3a :: marksText true marks m)))

/-- An annotation is printed last. -/
def endsTerminated (terminated : Bool) : List Mark → Bool
  | [] => terminated
  | .entry _ :: marks => endsTerminated false marks
  | .keyValue _ _ :: marks => endsTerminated true marks

/-- The message reads like one more mark. -/
def Continues (m : Text) : Prop :=
  bytes "at ." <+: m ∨ bytes "at [" <+: m ∨ bytes "with \"" <+: m

/-- The bytes of the texts between the parts. -/
theorem bytes_separators :
    bytes "." = [0x2e] ∧ bytes "[" = [0x5b] ∧ bytes "]" = [0x5d] ∧
      bytes ":" = [0x3a] ∧ bytes " " = [0x20] ∧
      bytes " at " = [0x20, 0x61, 0x74, 0x20] ∧
      bytes " with " = [0x20, 0x77, 0x69, 0x74, 0x68, 0x20] ∧
      bytes " == " = [0x20, 0x3d, 0x3d, 0x20] := by
  simp only [Dumper.bytes_eq]
  decide

namespace DeserializeError

/-- The marks of an error in the order in which they are printed. -/
def marks (e : DeserializeError) : List Mark :=
  e.backtrace.reverse.filterMap AccessType.mark

/-- The message cannot be taken for a part of the path. -/
def PlainMessage (e : DeserializeError) : Prop :=
  endsTerminated false e.marks = true → ¬ Continues (bytes e.message)

/-- The loop prints the marks, wherever it starts. -/
theorem bytes_foldl_printEntry
    (r : String × Bool)
    (l : List AccessType)
    (m : Text) :
    bytes (l.foldl printEntry r).1 ++
        ((if (l.foldl printEntry r).2 then [] else [0x3a]) ++ 0x20 :: m) =
      bytes r.1 ++ marksText r.2 (l.filterMap AccessType.mark) m := by
  obtain ⟨hdot, hopen, hclose, hcolon, _⟩ := bytes_separators
  induction l generalizing r with
  | nil =>
      rfl
  | cons a l ih =>
      rw [List.foldl_cons, ih]
      obtain ⟨result, terminated⟩ := r
      cases a with
      | fieldName field =>
          cases terminated <;> cases hfield : isIdentifier field <;>
            simp [printEntry, hfield, AccessType.mark, marksText, entryText,
              Dumper.bytes_append, hdot, hopen, hclose]
      | index i =>
          cases terminated <;>
            simp [printEntry, AccessType.mark, marksText, entryText,
              Dumper.bytes_append, hopen, hclose]
      | keyValue key value =>
          simp [printEntry, AccessType.mark, marksText, Dumper.bytes_append, hcolon]
      | hint msg =>
          rfl

theorem bytes_asString
    (e : DeserializeError) :
    bytes e.asString =
      (if e.backtrace.isEmpty then bytes "(top-level)" else []) ++
        marksText false e.marks (bytes e.message) := by
  obtain ⟨_, _, _, hcolon, hspace, _⟩ := bytes_separators
  have hfold := bytes_foldl_printEntry ("", false) e.backtrace.reverse (bytes e.message)
  have hempty : bytes "" = [] := Dumper.bytes_eq ""
  rw [hempty, List.nil_append] at hfold
  unfold marks
  rw [← hfold]
  obtain ⟨backtrace, message⟩ := e
  cases backtrace with
  | nil =>
      change bytes ("" ++ "(top-level)" ++ ":" ++ " " ++ message) =
        bytes "(top-level)" ++ (bytes "" ++ ([0x3a] ++ 0x20 :: bytes message))
      rw [Dumper.bytes_append, Dumper.bytes_append, Dumper.bytes_append,
        Dumper.bytes_append, hcolon, hspace, hempty]
      simp
  | cons a backtrace =>
      unfold asString
      dsimp only [List.isEmpty_cons]
      generalize (a :: backtrace).reverse.foldl printEntry ("", false) = r
      cases r.2 <;> simp [Dumper.bytes_append, hcolon, hspace]

end DeserializeError

/-! ## Taking the text apart -/

/-- Two texts that end at the first byte of another kind are the same. -/
theorem eq_of_append_stop
    {p : UInt8 → Prop}
    {a a' t t' : Text}
    {b b' : UInt8}
    (ha : ∀ c ∈ a, p c)
    (ha' : ∀ c ∈ a', p c)
    (hb : ¬ p b)
    (hb' : ¬ p b')
    (h : a ++ b :: t = a' ++ b' :: t') :
    a = a' ∧ b :: t = b' :: t' := by
  induction a generalizing a' with
  | nil =>
      cases a' with
      | nil => exact ⟨rfl, h⟩
      | cons c' a' =>
          cases h
          exact absurd (ha' b List.mem_cons_self) hb
  | cons c a ih =>
      cases a' with
      | nil =>
          cases h
          exact absurd (ha b' List.mem_cons_self) hb'
      | cons c' a' =>
          rw [List.cons_append, List.cons_append, List.cons.injEq] at h
          obtain ⟨rfl, h⟩ := h
          obtain ⟨rfl, ht⟩ := ih (fun d hd => ha d (List.mem_cons_of_mem _ hd))
            (fun d hd => ha' d (List.mem_cons_of_mem _ hd)) h
          exact ⟨rfl, ht⟩

/-- A dumped string tells where it ends. -/
theorem dumpString_append_inj
    {value value' : String}
    {t t' : Text}
    (h : bytes (Json.dumpString value) ++ t = bytes (Json.dumpString value') ++ t') :
    value = value' ∧ t = t' := by
  obtain ⟨b, hb, hread⟩ := Parser.characters_bytes_dumpString value t
  obtain ⟨b', hb', hread'⟩ := Parser.characters_bytes_dumpString value' t'
  rw [hb, hb', List.cons_append, List.cons_append, List.cons.injEq] at h
  rw [h.2] at hread
  obtain ⟨hvalue, ht⟩ := hread.unique hread'
  exact ⟨Utf8.toUTF8_injective hvalue, ht⟩

/-- A byte of an identifier. -/
def NameByte (c : UInt8) : Prop :=
  isAlpha c = true ∨ isNum c = true

theorem nameByte_of_isIdentifierLoop
    {first : Bool}
    {name : Text}
    (h : isIdentifierLoop first name = true) :
    ∀ c ∈ name, NameByte c := by
  induction name generalizing first with
  | nil =>
      simp
  | cons c name ih =>
      rw [isIdentifierLoop] at h
      split at h
      · cases h
      · rename_i hc
        intro d hd
        rcases List.mem_cons.mp hd with rfl | hd
        · cases halpha : isAlpha d with
          | true => exact Or.inl halpha
          | false =>
              refine Or.inr ?_
              cases hnum : isNum d <;> simp_all
        · exact ih h d hd

/-- The first byte of an entry. -/
theorem exists_entryText
    (x : Entry) :
    ∃ b t, entryText x = b :: t ∧ (b = 0x2e ∨ b = 0x5b) := by
  cases x with
  | field name =>
      cases hname : isIdentifier name with
      | true =>
          exact ⟨0x2e, bytes name, by simp [entryText, hname], Or.inl rfl⟩
      | false =>
          refine ⟨0x5b, bytes (Json.dumpString name) ++ [0x5d], ?_, Or.inr rfl⟩
          simp [entryText, hname]
  | index i =>
      exact ⟨_, _, rfl, Or.inr rfl⟩

/-- What is printed behind an entry does not begin with a byte of an identifier. -/
theorem exists_marksText_false
    (marks : List Mark)
    (m : Text) :
    ∃ b t, marksText false marks m = b :: t ∧ ¬ NameByte b ∧ b ≠ 0x28 := by
  cases marks with
  | nil =>
      exact ⟨_, _, rfl, by simp [NameByte]; decide, by decide⟩
  | cons mark marks =>
      cases mark with
      | entry x =>
          obtain ⟨b, t, hx, hb⟩ := exists_entryText x
          refine ⟨b, t ++ marksText false marks m, by rw [marksText, hx]; rfl, ?_⟩
          rcases hb with rfl | rfl <;> exact ⟨by simp [NameByte]; decide, by decide⟩
      | keyValue key value =>
          obtain ⟨_, _, _, _, _, _, hwith, _⟩ := bytes_separators
          exact ⟨_, _, by rw [marksText, hwith]; rfl, by simp [NameByte]; decide,
            by decide⟩

theorem isNum_of_mem_stdToString
    {i : Nat}
    {c : UInt8}
    (hc : c ∈ bytes (stdToString i)) :
    isNum c = true := by
  rw [Dumper.bytes_eq, stdToString, Nat.toList_repr] at hc
  obtain ⟨d, hd, hc⟩ := List.mem_flatMap.mp hc
  have hdigit := Nat.isDigit_of_mem_toDigits (by omega) (by omega) hd
  obtain ⟨hencode, hnum, _⟩ := Parser.utf8EncodeChar_of_isDigit hdigit
  rw [hencode, List.mem_singleton] at hc
  rw [hc]
  exact hnum

/-- An entry tells where it ends, in front of a byte of another kind. -/
theorem entryText_append_inj
    {x x' : Entry}
    {b b' : UInt8}
    {t t' : Text}
    (hb : ¬ NameByte b)
    (hb' : ¬ NameByte b')
    (h : entryText x ++ b :: t = entryText x' ++ b' :: t') :
    x = x' ∧ b :: t = b' :: t' := by
  have hnumber : ∀ (name : String) (i : Nat) (t t' : Text),
      bytes (Json.dumpString name) ++ t ≠ bytes (stdToString i) ++ 0x5d :: t' := by
    intro name i t t' heq
    obtain ⟨q, hq, _⟩ := Parser.characters_bytes_dumpString name t
    rw [hq, List.cons_append] at heq
    cases hi : bytes (stdToString i) with
    | nil =>
        rw [hi, List.nil_append, List.cons.injEq] at heq
        exact absurd heq.1 (by decide)
    | cons c rest =>
        have hc : isNum c = true := by
          apply isNum_of_mem_stdToString (i := i)
          rw [hi]
          exact List.mem_cons_self
        rw [hi, List.cons_append, List.cons.injEq] at heq
        rw [← heq.1] at hc
        exact absurd hc (by decide)
  cases x with
  | field name =>
      cases x' with
      | field name' =>
          unfold entryText at h
          cases hname : isIdentifier name <;> cases hname' : isIdentifier name' <;>
            simp only [hname, hname', if_true, Bool.false_eq_true, if_false,
              List.cons_append, List.append_assoc, List.cons.injEq, true_and] at h
          · obtain ⟨rfl, ht⟩ := dumpString_append_inj h
            exact ⟨rfl, by simpa using ht⟩
          · exact absurd h.1 (by decide)
          · exact absurd h.1 (by decide)
          · obtain ⟨hbytes, ht⟩ := eq_of_append_stop
              (nameByte_of_isIdentifierLoop hname)
              (nameByte_of_isIdentifierLoop hname') hb hb' h
            exact ⟨by rw [Utf8.toUTF8_injective hbytes], ht⟩
      | index i =>
          unfold entryText at h
          cases hname : isIdentifier name <;>
            simp only [hname, if_true, Bool.false_eq_true, if_false,
              List.cons_append, List.append_assoc, List.cons.injEq, true_and] at h
          · exact absurd h (hnumber name i _ _)
          · exact absurd h.1 (by decide)
  | index i =>
      cases x' with
      | field name' =>
          unfold entryText at h
          cases hname : isIdentifier name' <;>
            simp only [hname, if_true, Bool.false_eq_true, if_false,
              List.cons_append, List.append_assoc, List.cons.injEq, true_and] at h
          · exact absurd h.symm (hnumber name' i _ _)
          · exact absurd h.1 (by decide)
      | index i' =>
          simp only [entryText, List.cons_append, List.append_assoc,
            List.cons.injEq, true_and] at h
          obtain ⟨hbytes, ht⟩ := eq_of_append_stop (p := fun c => isNum c = true)
            (fun c hc => isNum_of_mem_stdToString hc)
            (fun c hc => isNum_of_mem_stdToString hc) (by decide) (by decide) h
          rw [stdToString_injective (Utf8.toUTF8_injective hbytes)]
          exact ⟨rfl, by simpa using ht⟩

/-- Behind an annotation, a mark begins where a message would. -/
theorem continues_of_marksText
    {mark : Mark}
    {marks : List Mark}
    {m m' : Text}
    (h : 0x20 :: m = marksText true (mark :: marks) m') :
    Continues m := by
  have hliterals : bytes "at ." = [0x61, 0x74, 0x20, 0x2e] ∧
      bytes "at [" = [0x61, 0x74, 0x20, 0x5b] ∧
      bytes "with \"" = [0x77, 0x69, 0x74, 0x68, 0x20, 0x22] := by
    simp only [Dumper.bytes_eq]
    decide
  obtain ⟨hfield, hindex, hkeyValue⟩ := hliterals
  obtain ⟨_, _, _, _, _, hat, hwith, _⟩ := bytes_separators
  unfold Continues
  rw [hfield, hindex, hkeyValue]
  cases mark with
  | entry x =>
      obtain ⟨b, t, hx, hb⟩ := exists_entryText x
      rw [marksText, if_pos rfl, hat, hx] at h
      obtain ⟨_, rfl⟩ := List.cons.inj h
      rcases hb with rfl | rfl
      · exact Or.inl ⟨_, rfl⟩
      · exact Or.inr (Or.inl ⟨_, rfl⟩)
  | keyValue key value =>
      obtain ⟨b, hb, _⟩ := Parser.characters_bytes_dumpString key []
      rw [marksText, hwith, hb] at h
      obtain ⟨_, rfl⟩ := List.cons.inj h
      exact Or.inr (Or.inr ⟨_, rfl⟩)

/-- The end of the marks is told from a mark. -/
theorem marksText_nil_ne
    {terminated : Bool}
    {mark : Mark}
    {marks : List Mark}
    {m m' : Text}
    (hplain : terminated = true → ¬ Continues m) :
    marksText terminated [] m ≠ marksText terminated (mark :: marks) m' := by
  intro h
  cases terminated with
  | true =>
      exact hplain rfl (continues_of_marksText h)
  | false =>
      cases mark with
      | entry x =>
          obtain ⟨b, t, hx, hb⟩ := exists_entryText x
          rw [marksText, marksText, hx] at h
          obtain ⟨rfl, _⟩ := List.cons.inj h
          revert hb
          decide
      | keyValue key value =>
          obtain ⟨_, _, _, _, _, _, hwith, _⟩ := bytes_separators
          rw [marksText, marksText, hwith] at h
          exact absurd (List.cons.inj h).1 (by decide)

/-- An entry of the path is told from an annotation. -/
theorem marksText_entry_ne
    {terminated : Bool}
    {x : Entry}
    {key value : String}
    {marks marks' : List Mark}
    {m m' : Text} :
    marksText terminated (.entry x :: marks) m ≠
      marksText terminated (.keyValue key value :: marks') m' := by
  intro h
  obtain ⟨_, _, _, _, _, hat, hwith, _⟩ := bytes_separators
  rw [marksText, marksText, hwith] at h
  cases terminated with
  | true =>
      rw [if_pos rfl, hat] at h
      exact absurd (List.cons.inj (List.cons.inj h).2).1 (by decide)
  | false =>
      obtain ⟨b, t, hx, hb⟩ := exists_entryText x
      rw [hx] at h
      obtain ⟨rfl, _⟩ := List.cons.inj h
      revert hb
      decide

/-- **The text of the marks can be taken apart.** -/
theorem marksText_inj
    {terminated : Bool}
    {marks marks' : List Mark}
    {m m' : Text}
    (hplain : endsTerminated terminated marks = true → ¬ Continues m)
    (hplain' : endsTerminated terminated marks' = true → ¬ Continues m')
    (h : marksText terminated marks m = marksText terminated marks' m') :
    marks = marks' ∧ m = m' := by
  induction marks generalizing terminated marks' with
  | nil =>
      cases marks' with
      | nil => exact ⟨rfl, (List.cons.inj (List.append_cancel_left h)).2⟩
      | cons mark' marks' => exact absurd h (marksText_nil_ne hplain)
  | cons mark marks ih =>
      cases marks' with
      | nil => exact absurd h.symm (marksText_nil_ne hplain')
      | cons mark' marks' =>
          cases mark with
          | entry x =>
              cases mark' with
              | entry x' =>
                  have h := List.append_cancel_left h
                  obtain ⟨b, t, ht, hb, _⟩ := exists_marksText_false marks m
                  obtain ⟨b', t', ht', hb', _⟩ := exists_marksText_false marks' m'
                  rw [ht, ht'] at h
                  obtain ⟨rfl, hrest⟩ := entryText_append_inj hb hb' h
                  obtain ⟨rfl, rfl⟩ := ih hplain hplain' (by rw [ht, ht', hrest])
                  exact ⟨rfl, rfl⟩
              | keyValue key value => exact absurd h marksText_entry_ne
          | keyValue key value =>
              cases mark' with
              | entry x' => exact absurd h.symm marksText_entry_ne
              | keyValue key' value' =>
                  obtain ⟨hkey, hbehind⟩ :=
                    dumpString_append_inj (List.append_cancel_left h)
                  obtain ⟨hvalue, hend⟩ :=
                    dumpString_append_inj (List.append_cancel_left hbehind)
                  obtain ⟨hmarks, hm⟩ := ih hplain hplain' (List.cons.inj hend).2
                  exact ⟨by rw [hkey, hvalue, hmarks], hm⟩

/--
**The text of an error tells its path, its annotations and its message**, and
whether it has a backtrace at all.
-/
theorem asString_eq_iff
    (e e' : DeserializeError)
    (he : e.PlainMessage)
    (he' : e'.PlainMessage) :
    e.asString = e'.asString ↔
      (e.backtrace = [] ↔ e'.backtrace = []) ∧ e.marks = e'.marks ∧
        e.message = e'.message := by
  have htop : bytes "(top-level)" = 0x28 :: bytes "top-level)" := by
    simp only [Dumper.bytes_eq]
    decide
  have hmarks : e.marks = e'.marks ∧ bytes e.message = bytes e'.message →
      e.marks = e'.marks ∧ e.message = e'.message := by
    rintro ⟨h, hm⟩
    exact ⟨h, Utf8.toUTF8_injective hm⟩
  -- No mark and no end begins with a parenthesis.
  have hne : ∀ (marks : List Mark) (m t : Text), marksText false marks m ≠ 0x28 :: t := by
    intro marks m t heq
    obtain ⟨b, r, hb, _, hparen⟩ := exists_marksText_false marks m
    rw [hb] at heq
    exact hparen (List.cons.inj heq).1
  constructor
  · intro h
    have hbytes := congrArg bytes h
    rw [e.bytes_asString, e'.bytes_asString, htop] at hbytes
    cases hb : e.backtrace with
    | nil =>
        cases hb' : e'.backtrace with
        | nil =>
            rw [hb, hb'] at hbytes
            have hbytes := List.append_cancel_left hbytes
            exact ⟨Iff.rfl, hmarks (marksText_inj he he' hbytes)⟩
        | cons a' backtrace' =>
            rw [hb, hb'] at hbytes
            exact absurd hbytes.symm (hne _ _ _)
    | cons a backtrace =>
        cases hb' : e'.backtrace with
        | nil =>
            rw [hb, hb'] at hbytes
            exact absurd hbytes (hne _ _ _)
        | cons a' backtrace' =>
            rw [hb, hb'] at hbytes
            exact ⟨by simp, hmarks (marksText_inj he he' hbytes)⟩
  · rintro ⟨hempty, h, hm⟩
    apply Utf8.toUTF8_injective
    change bytes e.asString = bytes e'.asString
    rw [e.bytes_asString, e'.bytes_asString, h, hm]
    cases hb : e.backtrace with
    | nil => rw [hempty.mp hb]
    | cons a backtrace =>
        cases hb' : e'.backtrace with
        | nil =>
            rw [hempty.mpr hb'] at hb
            cases hb
        | cons a' backtrace' => rfl

/-- A field, an index in it and a name that is no identifier. -/
theorem asString_eq_iff_fields :
    let e : DeserializeError :=
      ⟨[.fieldName "b c", .index 3, .hint "h", .keyValue "op" "set", .fieldName "a"], "bad"⟩
    let e' : DeserializeError :=
      ⟨[.fieldName "b c", .index 3, .keyValue "op" "set", .fieldName "a"], "bad"⟩
    e.asString = ".a with \"op\" == \"set\": at [3][\"b c\"]: bad" ∧
      e.asString = e'.asString := by
  intro e e'
  refine ⟨by decide +kernel, ?_⟩
  refine (asString_eq_iff e e' ?_ ?_).mpr ⟨by decide, by decide, rfl⟩
  · intro h
    exact absurd h (by decide)
  · intro h
    exact absurd h (by decide)

/-- Behind an annotation a message can be taken for a part of the path. -/
example :
    DeserializeError.asString ⟨[.keyValue "a" "b"], "at .x: m"⟩ =
      DeserializeError.asString ⟨[.fieldName "x", .keyValue "a" "b"], "m"⟩ := by
  decide +kernel

end Deserialize
end AgencyNode
