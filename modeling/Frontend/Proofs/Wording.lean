/-
# `Frontend.Proofs.Wording` — what was complained of can be read off the wording

A parser answers with the wordings of its problems, and the problems themselves are
gone.  Nothing is lost by that: no two problems have one wording.

Three of the four are worded with names of kinds and with a number, which are what they
are by their characters.  The fourth quotes a text, and a text may be anything: it may
hold quotes and backslashes, look like an escape, or read like another complaint.  What
is shown of each character ends by itself, so a quoted text is read from its front, one
character at a time (`Text.unescape?`), and the quote that closes it cannot be mistaken.

Which characters are shown as they are is a matter of tables, and those change with the
Unicode standard.  So nothing is made of the tables here.  A character may be shown in any
of its ways (`Text.Shows`), even in another one each time, as long as the quote and the
backslash never stand for themselves.
-/
import Frontend.Proofs.Positional
import Frontend.Problem
import Mathlib.Data.List.Basic

namespace Frontend

namespace Text

/-! ## Characters shown -/

/-- The letters behind a backslash, each with what it stands for. -/
def letters : List (Char × Char) :=
  [('"', '"'), ('\\', '\\'), ('n', '\n'), ('r', '\r'), ('t', '\t'), ('0', '\x00')]

/-- The ways in which a character may be shown between quotes. -/
inductive Shows (c : Char) : List Char → Prop where
  /-- As it is, if it is neither a quote nor a backslash. -/
  | raw (hquote : c ≠ '"') (hslash : c ≠ '\\') : Shows c [c]
  /-- By its letter, if it has one. -/
  | letter {l : Char} (h : (l, c) ∈ letters) : Shows c ['\\', l]
  /-- By its code. -/
  | code : Shows c (codeEscape c)

/-- The tables choose one of the ways. -/
theorem shows_escape (c : Char) : Shows c (escape c) := by
  unfold escape
  split
  case h_7 hquote hslash _ _ _ _ =>
    split
    · exact .code
    · exact .raw hquote hslash
  all_goals exact .letter (by decide)

/-- Reads the first character of those that are shown. -/
def unescape? : List Char → Option (Char × List Char)
  | [] => none
  | '\\' :: 'u' :: '\x7b' :: cs =>
    let digits := cs.takeWhile Radix.hexadecimal.isDigit
    some (Char.ofNat (Radix.hexadecimal.value digits), cs.drop (digits.length + 1))
  | '\\' :: l :: cs => (letters.lookup l).map fun c => (c, cs)
  | c :: cs => some (c, cs)

/-- In whatever way a character is shown, it is read, and reading ends behind it. -/
theorem unescape?_append {c : Char} {shown : List Char} (h : Shows c shown) (rest : List Char) :
    unescape? (shown ++ rest) = some (c, rest) := by
  cases h with
  | raw hquote hslash =>
    rw [List.singleton_append, unescape?.eq_def]
    split
    · contradiction
    · next h => exact absurd (List.cons.inj h).1 hslash
    · next h => exact absurd (List.cons.inj h).1 hslash
    · next h => rw [(List.cons.inj h).1, (List.cons.inj h).2]
  | letter hl =>
    simp only [letters, List.mem_cons, Prod.mk.injEq, List.not_mem_nil, or_false] at hl
    rcases hl with ⟨rfl, rfl⟩ | ⟨rfl, rfl⟩ | ⟨rfl, rfl⟩ | ⟨rfl, rfl⟩ | ⟨rfl, rfl⟩ | ⟨rfl, rfl⟩
    all_goals rfl
  | code =>
    obtain ⟨hdigits, hvalue⟩ :
        (∀ d ∈ hexDigits c.toNat, Radix.hexadecimal.isDigit d = true) ∧
          Radix.hexadecimal.value (hexDigits c.toNat) = c.toNat :=
      Radix.writes_iff.1 (Radix.hexadecimal.writes_toDigits c.toNat)
    have htake : (hexDigits c.toNat ++ '\x7d' :: rest).takeWhile Radix.hexadecimal.isDigit =
        hexDigits c.toNat :=
      takeWhile_append_of_stops hdigits (by rintro _ ⟨⟩; decide)
    have hshown : codeEscape c ++ rest =
        '\\' :: 'u' :: '\x7b' :: (hexDigits c.toNat ++ '\x7d' :: rest) := by
      simp [codeEscape]
    have hdrop : (hexDigits c.toNat ++ '\x7d' :: rest).drop ((hexDigits c.toNat).length + 1) =
        rest :=
      List.drop_length_add_append 1
    rw [hshown, unescape?, htake, hvalue, Char.ofNat_toNat, hdrop]

/-! ## Texts between quotes -/

/-- Characters, each of them shown in one of its ways. -/
inductive Spelling : List Char → List Char → Prop where
  | nil : Spelling [] []
  | cons {c : Char} {cs shown rest : List Char} (h : Shows c shown) (hrest : Spelling cs rest) :
      Spelling (c :: cs) (shown ++ rest)

theorem Shows.append_ne_quote {c : Char} {shown : List Char} (h : Shows c shown)
    (rest rest' : List Char) : shown ++ rest ≠ '"' :: rest' := by
  intro heq
  cases h with
  | raw hquote _ => exact hquote (List.cons.inj heq).1
  | letter _ => exact absurd (List.cons.inj heq).1 (by decide)
  | code => exact absurd (List.cons.inj heq).1 (by decide)

/-- Up to the quote that closes it a text is spelled in its own characters only. -/
theorem Spelling.unique {cs ds s t u v : List Char} (hs : Spelling cs s) (ht : Spelling ds t)
    (heq : s ++ '"' :: u = t ++ '"' :: v) : cs = ds := by
  induction hs generalizing ds t with
  | nil =>
    cases ht with
    | nil => rfl
    | cons h _ =>
      rw [List.append_assoc] at heq
      exact absurd heq.symm (h.append_ne_quote _ _)
  | @cons c cs shown rest h _ ih =>
    rw [List.append_assoc] at heq
    cases ht with
    | nil => exact absurd heq (h.append_ne_quote _ _)
    | @cons d ds shown' rest' h' hrest' =>
      rw [List.append_assoc] at heq
      have hread := (unescape?_append h _).symm.trans
        ((congrArg unescape? heq).trans (unescape?_append h' _))
      obtain ⟨rfl, hrest⟩ := Prod.mk.inj (Option.some.inj hread)
      rw [ih hrest' hrest]

/-- A text between quotes, in one of its ways. -/
def Quotes (text quoted : String) : Prop :=
  ∃ s, Spelling text.toList s ∧ quoted.toList = '"' :: (s ++ ['"'])

theorem quotes_quote (s : String) : Quotes s (quote s) := by
  have hspelling (cs : List Char) : Spelling cs (cs.flatMap escape) := by
    induction cs with
    | nil => exact .nil
    | cons c cs ih => exact .cons (shows_escape c) ih
  exact ⟨_, hspelling s.toList, String.toList_ofList⟩

theorem Quotes.unique {s t quoted : String} (hs : Quotes s quoted) (ht : Quotes t quoted) :
    s = t := by
  obtain ⟨cs, hcs, heq⟩ := hs
  obtain ⟨ds, hds, heq'⟩ := ht
  exact String.toList_inj.1 (hcs.unique hds (List.cons.inj (heq.symm.trans heq')).2)

end Text

/-! ## Wordings -/

namespace Problem

/-- A text words a problem.  Only for a quoted text is there more than one way. -/
def Words : Problem → String → Prop
  | notAnInteger t, text =>
    ∃ quoted, Text.Quotes t quoted ∧ text = "could not parse " ++ quoted ++ " as integer"
  | e, text => text = e.message

theorem words_message (e : Problem) : e.Words e.message := by
  cases e with
  | notAnInteger t => exact ⟨_, Text.quotes_quote t, rfl⟩
  | noOpening | unexpected | tooDeep => rfl

/-- The letter of a wording that tells the four causes apart. -/
def fourthLetter : Problem → Char
  | noOpening _ => 'p'
  | unexpected _ _ => 'e'
  | notAnInteger _ => 'l'
  | tooDeep _ => 'r'

theorem Words.getElem?_eq {e : Problem} {text : String} (h : e.Words text) :
    text.toList[3]? = some e.fourthLetter := by
  cases e with
  | notAnInteger t =>
    obtain ⟨quoted, -, rfl⟩ := h
    simp [String.toList_append, fourthLetter]
  | noOpening | unexpected | tooDeep =>
    cases h
    simp [String.toList_append, fourthLetter]

theorem comma_notMem_name (k : Kind) : ',' ∉ k.name.toList := by
  cases k <;> decide

theorem noOpening_inj_of_message {k l : Kind}
    (h : (noOpening k).message = (noOpening l).message) : k = l := by
  rw [message_noOpening, message_noOpening, String.append_left_inj, String.append_right_inj] at h
  exact Kind.name_inj h

/-- The first kind ends at the comma, for no kind has one in its name. -/
theorem unexpected_inj_of_message {k l k' l' : Kind}
    (h : (unexpected k l).message = (unexpected k' l').message) : k = k' ∧ l = l' := by
  have hlist := congrArg String.toList h
  simp only [message_unexpected, String.toList_append, List.append_assoc] at hlist
  have hbehind : ',' ∉ " got ".toList ++ (l.name.toList ++ " instead".toList) := by
    simp [comma_notMem_name l]
  obtain ⟨hk, -, hl⟩ := (List.append_cons_inj_of_notMem (comma_notMem_name k) hbehind).1
    (List.append_cancel_left hlist)
  have hname := List.append_cancel_right (List.append_cancel_left hl)
  exact ⟨Kind.name_inj (String.toList_inj.1 hk), Kind.name_inj (String.toList_inj.1 hname)⟩

/-- The digits of a limit stand for it. -/
theorem tooDeep_inj_of_message {m n : Nat} (h : (tooDeep m).message = (tooDeep n).message) :
    m = n := by
  rw [message_tooDeep, message_tooDeep, String.append_left_inj, String.append_right_inj] at h
  have hdigits : Nat.toDigits 10 m = Nat.toDigits 10 n := by
    rw [← Nat.toList_repr, h, Nat.toList_repr]
  have hvalue (k : Nat) : Radix.decimal.value (Nat.toDigits 10 k) = k :=
    (Radix.writes_iff.1 (Radix.decimal.writes_toDigits k)).2
  rw [← hvalue m, hdigits, hvalue]

/-- A text words one problem only. -/
theorem Words.unique {e e' : Problem} {text : String} (h : e.Words text) (h' : e'.Words text) :
    e = e' := by
  have hletter : e.fourthLetter = e'.fourthLetter :=
    Option.some.inj (h.getElem?_eq.symm.trans h'.getElem?_eq)
  cases e with
  | noOpening k =>
    cases e' with
    | noOpening l => rw [noOpening_inj_of_message (h.symm.trans h')]
    | unexpected | notAnInteger | tooDeep => simp [fourthLetter] at hletter
  | unexpected k l =>
    cases e' with
    | unexpected k' l' =>
      obtain ⟨rfl, rfl⟩ := unexpected_inj_of_message (h.symm.trans h')
      rfl
    | noOpening | notAnInteger | tooDeep => simp [fourthLetter] at hletter
  | notAnInteger t =>
    cases e' with
    | notAnInteger u =>
      obtain ⟨quoted, ht, rfl⟩ := h
      obtain ⟨quoted', hu, heq⟩ := h'
      rw [String.append_left_inj, String.append_right_inj] at heq
      subst heq
      rw [ht.unique hu]
    | noOpening | unexpected | tooDeep => simp [fourthLetter] at hletter
  | tooDeep m =>
    cases e' with
    | tooDeep n => rw [tooDeep_inj_of_message (h.symm.trans h')]
    | noOpening | unexpected | notAnInteger => simp [fourthLetter] at hletter

theorem message_injective : Function.Injective message := fun e e' h =>
  (words_message e).unique (h ▸ words_message e')

end Problem

namespace Diagnostics

/-- What is reported comes behind the others, in order. -/
theorem toList_foldl_report (d : Diagnostics) (es : List Problem) :
    (es.foldl report d).toList = d.toList ++ es := by
  induction es generalizing d with
  | nil => exact (List.append_nil _).symm
  | cons e es ih =>
    rw [List.foldl_cons, ih, toList_report, List.append_assoc]
    rfl

/-- The wordings that are kept are those of what was reported, in order. -/
theorem messages_foldl_report (es : List Problem) :
    (es.foldl report empty).messages = es.map Problem.message := by
  rw [messages, toList_foldl_report, toList_empty, List.nil_append]

end Diagnostics

/-- **Wordings tell problems apart.**  The wordings that a parser has recorded determine the
problems that it met, which are those that were reported, in order; and so does one wording the
one problem.

It does not matter which characters the tables show as they are.  Whatever way is chosen
for each character of a text that is quoted, the wordings determine the problems, and those
that a parser records are worded in this manner. -/
theorem wordings_determine_problems :
    (∀ d d' : Diagnostics, d.messages = d'.messages ↔ d = d') ∧
    (∀ es es' : List Problem,
      (es.foldl Diagnostics.report .empty).messages =
        (es'.foldl Diagnostics.report .empty).messages ↔ es = es') ∧
    (∀ e e' : Problem, e.message = e'.message ↔ e = e') ∧
    (∀ d : Diagnostics, List.Forall₂ Problem.Words d.toList d.messages) ∧
    ∀ (texts : List String) (es es' : List Problem), List.Forall₂ Problem.Words es texts →
      List.Forall₂ Problem.Words es' texts → es = es' := by
  have hworded (d : Diagnostics) : List.Forall₂ Problem.Words d.toList d.messages :=
    List.forall₂_map_right_iff.2 (List.forall₂_same.2 fun e _ => e.words_message)
  have hunique (texts : List String) (es es' : List Problem)
      (h : List.Forall₂ Problem.Words es texts) (h' : List.Forall₂ Problem.Words es' texts) :
      es = es' :=
    List.left_unique_forall₂' (fun _ _ _ hleft hright => hleft.unique hright) h h'
  refine ⟨fun d d' => ⟨fun h => ?_, congrArg _⟩, fun es es' => ?_,
    fun e e' => Problem.message_injective.eq_iff, hworded, hunique⟩
  · have hlist := hunique d.messages d.toList d'.toList (hworded d) (h ▸ hworded d')
    obtain ⟨problems⟩ := d
    obtain ⟨problems'⟩ := d'
    exact congrArg Diagnostics.mk (Array.toList_inj.1 hlist)
  · rw [Diagnostics.messages_foldl_report, Diagnostics.messages_foldl_report]
    exact (List.map_injective_iff.2 Problem.message_injective).eq_iff

/-- A text of a backslash and the letter n is not taken for a newline, and a newline may be
shown as it is or by its code: these are two wordings of one problem, and neither of them words
another. -/
theorem wordings_determine_problems_newline :
    let newline : Problem := .notAnInteger "\n"
    let slash : Problem := .notAnInteger "\\n"
    let raw := "could not parse \"\n\" as integer"
    let coded := "could not parse \"\\u\x7ba\x7d\" as integer"
    newline.message ≠ slash.message ∧ newline.Words raw ∧ newline.Words coded ∧
      ∀ e : Problem, e.Words raw ∨ e.Words coded → e = newline := by
  intro newline slash raw coded
  have hraw : newline.Words raw :=
    ⟨"\"\n\"", ⟨['\n'], .cons (.raw (by decide) (by decide)) .nil, rfl⟩, by decide⟩
  have hcoded : newline.Words coded :=
    ⟨"\"\\u\x7ba\x7d\"", ⟨_, .cons (.code : Text.Shows '\n' _) .nil, by decide⟩, by decide⟩
  obtain ⟨-, -, hmessage, -, hunique⟩ := wordings_determine_problems
  refine ⟨mt (hmessage newline slash).1 (by decide), hraw, hcoded, fun e he => ?_⟩
  rcases he with he | he
  · exact List.head_eq_of_cons_eq
      (hunique [raw] [e] [newline] (.cons he .nil) (.cons hraw .nil))
  · exact List.head_eq_of_cons_eq
      (hunique [coded] [e] [newline] (.cons he .nil) (.cons hcoded .nil))

end Frontend
