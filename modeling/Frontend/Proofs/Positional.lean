/-
# `Frontend.Proofs.Positional` — which texts are integers, and which integers

An integer is read by taking its text apart and folding over the digits.  What
it should be is said here without either: a sign, the mark of a base and digits
stand one behind the other (`Spells`), every digit counts something below the
base, and the number is the sum of what the digits count, each by its place
(`Radix.Writes`, which is `Nat.ofDigits` of the digits from the last to the
first).

Taking apart loses nothing, so every text is spelled by what it is taken apart
into.  That it is not spelled in a second way needs more: the digit behind a
sign is no sign, and a zero behind which a letter of a base stands is no run of
decimal digits.
-/
import Frontend.Numeral.Basic
import Frontend.Proofs.Lexeme
import Mathlib.Data.List.Forall2
import Mathlib.Data.Nat.Digits.Defs

namespace Frontend

namespace Radix

variable {r : Radix} {c : Char} {cs : List Char} {d n : Nat}

/-! ## What a digit counts -/

/-- A character counts something below the base.  The letters may be of either case. -/
def Counts (r : Radix) (c : Char) (d : Nat) : Prop :=
  d < r.base ∧ (c = d.digitChar ∨ c = d.digitChar.toUpper)

theorem one_lt_base (r : Radix) : 1 < r.base := by
  cases r <;> decide

theorem base_le (r : Radix) : r.base ≤ 16 := by
  cases r <;> decide

/-- The six letters in their lower and in their upper case. -/
theorem toNat_digitChar_add_ten :
    ∀ i < 6, (i + 10).digitChar.toNat = i + 97 ∧ (i + 10).digitChar.toUpper.toNat = i + 65 := by
  decide

theorem digitValue?_digitChar :
    ∀ d < 16, digitValue? d.digitChar = some d ∧ digitValue? d.digitChar.toUpper = some d := by
  decide

theorem eq_digitChar_of_digitValue? (h : digitValue? c = some d) :
    c = d.digitChar ∨ c = d.digitChar.toUpper := by
  simp only [digitValue?, char_le_iff, Char.reduceToNat] at h
  split at h
  · next hdigit =>
    obtain rfl := Option.some.inj h
    refine .inl (Char.toNat_inj.1 ?_)
    rw [Nat.toNat_digitChar_of_lt_ten (by omega)]
    omega
  · split at h
    · next hlower =>
      obtain rfl := Option.some.inj h
      refine .inl (Char.toNat_inj.1 ?_)
      rw [(toNat_digitChar_add_ten (c.toNat - 97) (by omega)).1]
      omega
    · split at h
      · next hupper =>
        obtain rfl := Option.some.inj h
        refine .inr (Char.toNat_inj.1 ?_)
        rw [(toNat_digitChar_add_ten (c.toNat - 65) (by omega)).2]
        omega
      · cases h

theorem digit?_eq_some_iff : r.digit? c = some d ↔ r.Counts c d := by
  simp only [digit?, Option.filter_eq_some_iff, decide_eq_true_eq, Counts]
  constructor
  · rintro ⟨hvalue, hlt⟩
    exact ⟨hlt, eq_digitChar_of_digitValue? hvalue⟩
  · rintro ⟨hlt, rfl | rfl⟩
    · exact ⟨(digitValue?_digitChar d (Nat.lt_of_lt_of_le hlt r.base_le)).1, hlt⟩
    · exact ⟨(digitValue?_digitChar d (Nat.lt_of_lt_of_le hlt r.base_le)).2, hlt⟩

theorem isDigit_iff : r.isDigit c = true ↔ ∃ d, r.Counts c d := by
  rw [isDigit, Option.isSome_iff_exists]
  exact exists_congr fun d => digit?_eq_some_iff

/-! ## What a run of digits stands for -/

/-- A run of characters stands for a number: the sum of what each counts, by its place. -/
def Writes (r : Radix) (cs : List Char) (n : Nat) : Prop :=
  ∃ ds, List.Forall₂ r.Counts cs ds ∧ n = Nat.ofDigits r.base ds.reverse

theorem exists_counts_iff :
    (∃ ds, List.Forall₂ r.Counts cs ds) ↔ ∀ c ∈ cs, r.isDigit c = true := by
  constructor
  · rintro ⟨ds, h⟩
    induction h with
    | nil => exact fun c hc => absurd hc List.not_mem_nil
    | cons hc _ ih => exact List.forall_mem_cons.2 ⟨isDigit_iff.2 ⟨_, hc⟩, ih⟩
  · intro h
    induction cs with
    | nil => exact ⟨[], .nil⟩
    | cons c cs ih =>
      obtain ⟨hc, hcs⟩ := List.forall_mem_cons.1 h
      obtain ⟨d, hd⟩ := isDigit_iff.1 hc
      obtain ⟨ds, hds⟩ := ih hcs
      exact ⟨d :: ds, .cons hd hds⟩

/-- Folding from the left is the sum by places, above which stands what was there before. -/
theorem foldl_eq_ofDigits {ds : List Nat} (h : List.Forall₂ r.Counts cs ds) (n : Nat) :
    cs.foldl (fun n c => n * r.base + (r.digit? c).getD 0) n =
      n * r.base ^ ds.length + Nat.ofDigits r.base ds.reverse := by
  induction h generalizing n with
  | nil => simp
  | @cons c d cs ds hc _ ih =>
    have hd : (r.digit? c).getD 0 = d := by
      rw [digit?_eq_some_iff.2 hc]
      rfl
    rw [List.foldl_cons, ih, hd, Nat.ofDigits_reverse_cons, List.length_cons, Nat.pow_succ',
      Nat.add_mul, Nat.mul_assoc, Nat.mul_comm d]
    omega

theorem value_eq_ofDigits {ds : List Nat} (h : List.Forall₂ r.Counts cs ds) :
    r.value cs = Nat.ofDigits r.base ds.reverse := by
  rw [value, foldl_eq_ofDigits h, Nat.zero_mul, Nat.zero_add]

/-- The characters of a run are digits, and the number is the one that is computed. -/
theorem writes_iff :
    r.Writes cs n ↔ (∀ c ∈ cs, r.isDigit c = true) ∧ r.value cs = n := by
  constructor
  · rintro ⟨ds, hds, rfl⟩
    exact ⟨exists_counts_iff.1 ⟨ds, hds⟩, value_eq_ofDigits hds⟩
  · rintro ⟨hcs, rfl⟩
    obtain ⟨ds, hds⟩ := exists_counts_iff.2 hcs
    exact ⟨ds, hds, value_eq_ofDigits hds⟩

theorem Writes.concat (h : r.Writes cs n) (hd : d < r.base) :
    r.Writes (cs ++ [d.digitChar]) (d + r.base * n) := by
  obtain ⟨ds, hds, rfl⟩ := h
  refine ⟨ds ++ [d], List.rel_append hds (.cons ⟨hd, .inl rfl⟩ .nil), ?_⟩
  rw [List.reverse_append, List.reverse_singleton, List.singleton_append, Nat.ofDigits_cons]

/-- The digits of a number stand for it. -/
theorem writes_toDigits (r : Radix) (n : Nat) : r.Writes (Nat.toDigits r.base n) n := by
  have hnil : r.Writes [] 0 := ⟨[], .nil, rfl⟩
  induction n using Nat.strongRecOn with
  | ind n ih =>
    rw [Nat.toDigits_eq_if r.one_lt_base]
    split
    · next hlt => exact hnil.concat hlt
    · next hge =>
      have hbase := r.one_lt_base
      have hfront := ih (n / r.base) (Nat.div_lt_self (by omega) hbase)
      have hlast := hfront.concat (Nat.mod_lt n (by omega))
      rwa [Nat.mod_add_div] at hlast

theorem value_replicate_zero_append (r : Radix) (k : Nat) (cs : List Char) :
    r.value (List.replicate k '0' ++ cs) = r.value cs := by
  induction k with
  | zero => rfl
  | succ k ih =>
    have hzero : 0 * r.base + (r.digit? '0').getD 0 = 0 := by cases r <;> rfl
    rw [List.replicate_succ, List.cons_append, value, List.foldl_cons, hzero]
    exact ih

theorem isDigit_zero (r : Radix) : r.isDigit '0' = true := by
  cases r <;> decide

/-- Zeros in front change nothing. -/
theorem Writes.replicate_zero_append (h : r.Writes cs n) (k : Nat) :
    r.Writes (List.replicate k '0' ++ cs) n := by
  obtain ⟨hcs, hn⟩ := writes_iff.1 h
  refine writes_iff.2 ⟨List.forall_mem_append.2 ⟨?_, hcs⟩, ?_⟩
  · intro c hc
    rw [List.eq_of_mem_replicate hc]
    exact r.isDigit_zero
  · rw [value_replicate_zero_append, hn]

/-! ## Marks -/

/-- The marks of a base.  Base ten has none. -/
def marks : Radix → List (List Char)
  | binary => [['0', 'b'], ['0', 'B']]
  | octal => [['0', 'o'], ['0', 'O']]
  | decimal => [[]]
  | hexadecimal => [['0', 'x'], ['0', 'X']]

/-- A base other than ten is marked by a zero and a letter that announces it. -/
theorem mem_marks_iff {mark : List Char} :
    mark ∈ r.marks ↔ (r = .decimal ∧ mark = []) ∨ ∃ m, mark = ['0', m] ∧ ofMark? m = some r := by
  constructor
  · intro h
    cases r <;> simp only [marks, List.mem_cons, List.not_mem_nil, or_false] at h
    case decimal => exact .inl ⟨rfl, h⟩
    all_goals
      rcases h with rfl | rfl <;> exact .inr ⟨_, rfl, rfl⟩
  · rintro (⟨rfl, rfl⟩ | ⟨m, rfl, hm⟩)
    · exact List.mem_singleton_self _
    · unfold ofMark? at hm
      split at hm <;> cases hm <;> simp [marks]

end Radix

namespace Numeral

variable {n : Numeral} {cs : List Char} {v : Int}

/-! ## The parts of a text -/

/-- The signs of the negative integers, and those of the others. -/
def signs : Bool → List (List Char)
  | true => [['-']]
  | false => [[], ['+']]

/-- A text is a sign, the mark of a base, and what should be digits. -/
inductive Spells : Numeral → List Char → Prop where
  | intro {negative : Bool} {r : Radix} {sign mark digits : List Char} (hsign : sign ∈ signs negative)
      (hmark : mark ∈ r.marks) : Spells ⟨negative, r, digits⟩ (sign ++ (mark ++ digits))

/-- A text is the text of an integer: it is spelled with one digit or more, and the
integer is what the digits stand for, with the sign. -/
def Denotes (cs : List Char) (v : Int) : Prop :=
  ∃ (n : Numeral) (m : Nat), n.Spells cs ∧ n.digits ≠ [] ∧ n.radix.Writes n.digits m ∧
    v = if n.negative = true then -(m : Int) else (m : Int)

theorem exists_sign_append (cs : List Char) :
    ∃ sign ∈ signs (splitSign cs).1, cs = sign ++ (splitSign cs).2 := by
  unfold splitSign
  split
  · exact ⟨['-'], .head _, rfl⟩
  · exact ⟨['+'], .tail _ (.head _), rfl⟩
  · exact ⟨[], .head _, rfl⟩

theorem exists_mark_append (cs : List Char) :
    ∃ mark ∈ (splitRadix cs).1.marks, cs = mark ++ (splitRadix cs).2 := by
  unfold splitRadix
  split
  · next m cs =>
    split
    · next r hm => exact ⟨['0', m], Radix.mem_marks_iff.2 (.inr ⟨m, rfl, hm⟩), rfl⟩
    · exact ⟨[], .head _, rfl⟩
  · exact ⟨[], .head _, rfl⟩

/-- Taking a text apart loses nothing. -/
theorem spells_ofChars (cs : List Char) : (ofChars cs).Spells cs := by
  obtain ⟨sign, hsign, hcs⟩ := exists_sign_append cs
  obtain ⟨mark, hmark, hrest⟩ := exists_mark_append (splitSign cs).2
  have hspells : Spells (ofChars cs) (sign ++ (mark ++ (splitRadix (splitSign cs).2).2)) :=
    .intro hsign hmark
  rwa [← hrest, ← hcs] at hspells

theorem isWritten_iff :
    n.isWritten = true ↔ n.digits ≠ [] ∧ ∀ c ∈ n.digits, n.radix.isDigit c = true := by
  simp [isWritten]

section Unique

variable {negative : Bool} {r : Radix} {sign mark digits : List Char}

/-- What stands behind a sign begins with a digit, and so with no other sign. -/
theorem splitSign_append (hsign : sign ∈ signs negative) (hcs : IsInteger cs) :
    splitSign (sign ++ cs) = (negative, cs) := by
  obtain ⟨d, ds, rfl, hd⟩ := hcs.isWordChar_head
  cases negative with
  | true =>
    obtain rfl := List.mem_singleton.1 hsign
    rfl
  | false =>
    simp only [signs, List.mem_cons, List.not_mem_nil, or_false] at hsign
    rcases hsign with rfl | rfl
    · rw [List.nil_append]
      unfold splitSign
      split
      · next heq =>
        cases heq
        exact absurd hd (by decide)
      · next heq =>
        cases heq
        exact absurd hd (by decide)
      · rfl
    · rfl

/-- A letter that announces a base is no decimal digit, so decimal digits have no mark
among them. -/
theorem splitRadix_of_decimal (h : ∀ c ∈ digits, Radix.decimal.isDigit c = true) :
    splitRadix digits = (.decimal, digits) := by
  unfold splitRadix
  split
  · next m cs =>
    split
    · next r hm =>
      have hdigit := h m (by simp)
      rw [(isWordChar_of_ofMark? hm).2] at hdigit
      cases hdigit
    · rfl
  · rfl

theorem splitRadix_append (hmark : mark ∈ r.marks) (h : ∀ c ∈ digits, r.isDigit c = true) :
    splitRadix (mark ++ digits) = (r, digits) := by
  rcases Radix.mem_marks_iff.1 hmark with ⟨rfl, rfl⟩ | ⟨m, rfl, hm⟩
  · exact splitRadix_of_decimal h
  · show splitRadix ('0' :: m :: digits) = (r, digits)
    rw [splitRadix, hm]

theorem isInteger_append (hmark : mark ∈ r.marks) (hne : digits ≠ [])
    (h : ∀ c ∈ digits, r.isDigit c = true) : IsInteger (mark ++ digits) := by
  rcases Radix.mem_marks_iff.1 hmark with ⟨rfl, rfl⟩ | ⟨m, rfl, hm⟩
  · exact .inl ⟨hne, h⟩
  · exact .inr ⟨m, r, digits, rfl, hm, hne, h⟩

end Unique

/-- A text is spelled in one way only, if by digits. -/
theorem Spells.ofChars_eq (h : n.Spells cs) (hn : n.isWritten = true) : ofChars cs = n := by
  obtain ⟨hne, hdigits⟩ := isWritten_iff.1 hn
  cases h with
  | intro hsign hmark =>
    rw [ofChars, splitSign_append hsign (isInteger_append hmark hne hdigits),
      splitRadix_append hmark hdigits]

/-- The texts of integers are those that are taken apart into digits, and the integer
is the one that is computed. -/
theorem denotes_iff : Denotes cs v ↔ (ofChars cs).isWritten = true ∧ (ofChars cs).value = v := by
  constructor
  · rintro ⟨n, m, hspells, hne, hwrites, rfl⟩
    obtain ⟨hdigits, rfl⟩ := Radix.writes_iff.1 hwrites
    have hwritten := isWritten_iff.2 ⟨hne, hdigits⟩
    rw [hspells.ofChars_eq hwritten]
    exact ⟨hwritten, rfl⟩
  · rintro ⟨hwritten, rfl⟩
    obtain ⟨hne, hdigits⟩ := isWritten_iff.1 hwritten
    exact ⟨_, _, spells_ofChars cs, hne, Radix.writes_iff.2 ⟨hdigits, rfl⟩, rfl⟩

/-! ## Written integers -/

/-- An integer with a sign, a mark of some base and digits of that base denotes the number
that the digits stand for. -/
theorem denotes_append {negative : Bool} {r : Radix} {sign mark digits : List Char} {m : Nat}
    (hsign : sign ∈ signs negative) (hmark : mark ∈ r.marks) (hne : digits ≠ [])
    (hwrites : r.Writes digits m) :
    Denotes (sign ++ (mark ++ digits)) (if negative = true then -(m : Int) else (m : Int)) :=
  ⟨⟨negative, r, digits⟩, m, .intro hsign hmark, hne, hwrites, rfl⟩

theorem ofChars_append {negative : Bool} {r : Radix} {sign mark digits : List Char} {m : Nat}
    (hsign : sign ∈ signs negative) (hmark : mark ∈ r.marks) (hne : digits ≠ [])
    (hwrites : r.Writes digits m) :
    ofChars (sign ++ (mark ++ digits)) = ⟨negative, r, digits⟩ ∧
      (ofChars (sign ++ (mark ++ digits))).isWritten = true := by
  have hwritten : Numeral.isWritten ⟨negative, r, digits⟩ = true :=
    isWritten_iff.2 ⟨hne, (Radix.writes_iff.1 hwrites).1⟩
  have heq := (Spells.intro hsign hmark).ofChars_eq hwritten
  exact ⟨heq, heq ▸ hwritten⟩

/-- An integer is its absolute value with the sign that it has. -/
theorem neg_or_natAbs (v : Int) :
    (if decide (v < 0) = true then -(v.natAbs : Int) else (v.natAbs : Int)) = v := by
  simp only [decide_eq_true_eq]
  omega

theorem denotes_toDigits {sign mark : List Char} {r : Radix}
    (hsign : sign ∈ signs (decide (v < 0))) (hmark : mark ∈ r.marks) :
    Denotes (sign ++ (mark ++ Nat.toDigits r.base v.natAbs)) v := by
  have h := denotes_append hsign hmark Nat.toDigits_ne_nil (r.writes_toDigits v.natAbs)
  rwa [neg_or_natAbs] at h

/-- An integer is printed with a sign if it is negative, without a mark, and in decimal
digits. -/
theorem denotes_toString (v : Int) : Denotes (toString v).toList v := by
  have hmark : [] ∈ Radix.decimal.marks := List.mem_singleton_self _
  cases v with
  | ofNat m =>
    have hnonneg : ¬ Int.ofNat m < 0 := Int.not_lt.2 (Int.natCast_nonneg m)
    have hsign : [] ∈ signs (decide (Int.ofNat m < 0)) := by
      rw [decide_eq_false hnonneg]
      exact List.mem_cons_self
    have h := denotes_toDigits hsign hmark
    have htext : (toString (Int.ofNat m)).toList = Nat.toDigits 10 m := Nat.toList_repr
    rw [htext]
    exact h
  | negSucc m =>
    have hsign : ['-'] ∈ signs (decide (Int.negSucc m < 0)) := by
      rw [decide_eq_true (Int.negSucc_lt_zero m)]
      exact List.mem_singleton_self _
    have h := denotes_toDigits hsign hmark
    have htext : (toString (Int.negSucc m)).toList = '-' :: Nat.toDigits 10 (m + 1) := by
      show ("-" ++ Nat.repr (m + 1)).toList = _
      rw [String.toList_append, Nat.toList_repr]
      rfl
    rw [htext]
    exact h

/-! ## The reader -/

/-- The integers of a signed word of sixty-four bits. -/
theorem mem_range_iff : least ≤ v ∧ v < bound ↔
    -9223372036854775808 ≤ v ∧ v ≤ 9223372036854775807 := by
  rw [least, bound]
  omega

theorem read?_iff_denotes {s : String} :
    read? s = some v ↔
      Denotes s.toList v ∧ -9223372036854775808 ≤ v ∧ v ≤ 9223372036854775807 := by
  rw [read?_eq_some_iff, denotes_iff, and_assoc, mem_range_iff]

theorem read?_congr {s t : String} (hw : (ofChars s.toList).isWritten = (ofChars t.toList).isWritten)
    (hv : (ofChars s.toList).value = (ofChars t.toList).value) : read? s = read? t := by
  simp only [read?, hw, hv]

/-- **Integers.**  On every text the reader answers as the positional system has it: the
answer is an integer exactly if the text denotes it and it fits a signed word of
sixty-four bits, and else there is no answer.

So zeros in front of the digits change neither the base nor the value; every integer in
range is read back from its digits in each base, behind each mark and sign that it may
have, the least one included; and it is read back from the way it is printed. -/
theorem positional_reading :
    (∀ (s : String) (v : Int), read? s = some v ↔
      Denotes s.toList v ∧ -9223372036854775808 ≤ v ∧ v ≤ 9223372036854775807) ∧
    (∀ (negative : Bool) (r : Radix) (digits : List Char) (m k : Nat),
      ∀ sign ∈ signs negative, ∀ mark ∈ r.marks, digits ≠ [] → r.Writes digits m →
        let plain := sign ++ (mark ++ digits)
        let padded := sign ++ (mark ++ (List.replicate k '0' ++ digits))
        (ofChars padded).radix = (ofChars plain).radix ∧
          (ofChars padded).value = (ofChars plain).value ∧
          read? (String.ofList padded) = read? (String.ofList plain)) ∧
    ∀ v : Int, -9223372036854775808 ≤ v → v ≤ 9223372036854775807 →
      (∀ r : Radix, ∀ sign ∈ signs (decide (v < 0)), ∀ mark ∈ r.marks,
        read? (String.ofList (sign ++ (mark ++ Nat.toDigits r.base v.natAbs))) = some v) ∧
      read? (toString v) = some v := by
  refine ⟨fun s v => read?_iff_denotes, ?_, ?_⟩
  · intro negative r digits m k sign hsign mark hmark hne hwrites plain padded
    have hwide : List.replicate k '0' ++ digits ≠ [] := List.append_ne_nil_of_right_ne_nil _ hne
    obtain ⟨hplain, hplain'⟩ := ofChars_append hsign hmark hne hwrites
    obtain ⟨hpadded, hpadded'⟩ :=
      ofChars_append hsign hmark hwide (hwrites.replicate_zero_append k)
    have hvalue : (ofChars padded).value = (ofChars plain).value := by
      rw [hplain, hpadded, value, value, Radix.value_replicate_zero_append]
    refine ⟨by rw [hplain, hpadded], hvalue, read?_congr ?_ ?_⟩
    · rw [String.toList_ofList, String.toList_ofList, hplain', hpadded']
    · rw [String.toList_ofList, String.toList_ofList, hvalue]
  · intro v hleast hgreatest
    refine ⟨fun r sign hsign mark hmark => ?_, ?_⟩
    · rw [read?_iff_denotes, String.toList_ofList]
      exact ⟨denotes_toDigits hsign hmark, hleast, hgreatest⟩
    · exact read?_iff_denotes.2 ⟨denotes_toString v, hleast, hgreatest⟩

/-- With a plus and in either case of the letters, `+0XfF` denotes 255, and so do its digits
behind three zeros; `0x` without digits and a sign behind a mark denote nothing.  The
least integer is read in base two and as it is printed. -/
theorem positional_reading_least :
    let least : Int := -9223372036854775808
    let bits := Nat.toDigits Radix.binary.base least.natAbs
    ['+'] ∈ signs false ∧ ['0', 'X'] ∈ Radix.hexadecimal.marks ∧
      Radix.hexadecimal.Writes ['f', 'F'] 255 ∧ Denotes ['+', '0', 'X', 'f', 'F'] 255 ∧
      read? "+0XfF" = some 255 ∧ read? "+0X000fF" = read? "+0XfF" ∧
      read? "0x" = none ∧ read? "0x-1" = none ∧
      least ≤ least ∧ least ≤ 9223372036854775807 ∧
      bits.length = 64 ∧ read? (String.ofList ('-' :: '0' :: 'b' :: bits)) = some least ∧
      read? "-9223372036854775808" = some least ∧ read? "9223372036854775808" = none := by
  intro least bits
  have hsign : ['+'] ∈ signs false := .tail _ (.head _)
  have hmark : ['0', 'X'] ∈ Radix.hexadecimal.marks := .tail _ (.head _)
  have hwrites : Radix.hexadecimal.Writes ['f', 'F'] 255 :=
    ⟨[15, 15], .cons ⟨by decide, .inl rfl⟩ (.cons ⟨by decide, .inr rfl⟩ .nil), rfl⟩
  have hdenotes : Denotes ['+', '0', 'X', 'f', 'F'] 255 :=
    denotes_append hsign hmark (List.cons_ne_nil _ _) hwrites
  have hread := (positional_reading.1 "+0XfF" 255).2 ⟨hdenotes, by decide, by decide⟩
  have hzeros := positional_reading.2.1 false .hexadecimal ['f', 'F'] 255 3 ['+'] hsign ['0', 'X']
    hmark (List.cons_ne_nil _ _) hwrites
  have hrange : least ≤ least ∧ least ≤ 9223372036854775807 := by decide
  obtain ⟨hbits, hprinted⟩ := positional_reading.2.2 least hrange.1 hrange.2
  have hbinary := hbits .binary ['-'] (.head _) ['0', 'b'] (.head _)
  exact ⟨hsign, hmark, hwrites, hdenotes, hread, hzeros.2.2, by decide +kernel, by decide +kernel,
    hrange.1, hrange.2, by decide +kernel, hbinary, hprinted, by decide +kernel⟩

end Numeral

end Frontend
