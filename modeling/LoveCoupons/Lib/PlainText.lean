import LoveCoupons.Lib.HtmlReader
import Mathlib.Tactic.Common

/-!
# Text that HTML reads as itself

A text before a tag is read as its own characters exactly when nothing else opens anywhere in it. What opens
is a tag, so that the text stops there, or it changes a character, or it takes more characters than it gives.
No later character can make up for that, because no tag starts after the last `<`.
-/

namespace HtmlReader

namespace Reader

variable {r : Reader} {c : Char} {l text rest chars : List Char} {n : ℕ} {t : Tag}

/-- To start later is to leave characters out. -/
theorem tokens_eq_drop (n : ℕ) (l : List Char) : r.tokens n l = r.tokens 0 (l.drop n) := by
  induction l generalizing n with
  | nil => simp [tokens]
  | cons c l ih =>
    cases n with
    | zero => rfl
    | succ n => exact ih n

/-- Text is followed by what comes after it. -/
theorem tokens_of_text (h : r.read c l = .text chars n) :
    r.tokens 0 (c :: l) = chars.map .char ++ r.tokens 0 (l.drop n) := by
  rw [tokens, h, ← tokens_eq_drop]

/-- A tag is the first token where it is read. -/
theorem tokens_of_tag (h : r.read c l = .tag t n) : ∃ after, r.tokens 0 (c :: l) = .tag t :: after := by
  rw [tokens, h]
  exact ⟨_, rfl⟩

/-- The tag of an ordinary element is followed by what comes after it. -/
theorem tokens_of_ordinary (h : r.read c (l ++ rest) = .tag t l.length)
    (hordinary : (t.isEnd || t.name ∉ otherContent) = true) :
    r.tokens 0 (c :: l ++ rest) = .tag t :: r.tokens 0 rest := by
  have hcontent : ¬ (t.isEnd = false ∧ t.name ∈ otherContent) := by
    rintro ⟨hstart, hother⟩
    simp [hstart, hother] at hordinary
  rw [List.cons_append, tokens, h]
  dsimp only
  rw [if_neg hcontent, tokens_eq_drop, List.drop_left]

end Reader

/-- Characters at the start of a document are at the start of the text before its first tag. -/
theorem exists_append_of_map_char {chars text : List Char} {t : Tag} {rest after : List Token}
    (h : chars.map .char ++ rest = text.map .char ++ .tag t :: after) :
    ∃ later, text = chars ++ later ∧ rest = later.map .char ++ .tag t :: after := by
  induction chars generalizing text with
  | nil => exact ⟨text, rfl, h⟩
  | cons c chars ih =>
    cases text with
    | nil => simp at h
    | cons c' text =>
      simp only [List.map_cons, List.cons_append, List.cons.injEq, Token.char.injEq] at h
      obtain ⟨rfl, htail⟩ := h
      obtain ⟨later, rfl, hrest⟩ := ih htail
      exact ⟨later, rfl, hrest⟩

/-- What is left of a text comes after what was taken. -/
theorem exists_append_of_drop {l before rest : List Char} {n : ℕ} (h : l.drop n = before ++ '<' :: rest) :
    ∃ taken, l = taken ++ (before ++ '<' :: rest) ∧ taken.length = n := by
  refine ⟨l.take n, by rw [← h, List.take_append_drop], ?_⟩
  have hlength := congrArg List.length h
  simp only [List.length_drop, List.length_append, List.length_cons] at hlength
  rw [List.length_take]
  omega

/-- Every `<` comes at or before the last one. -/
theorem length_le_of_append_eq {text before rest rest' : List Char} (hrest : '<' ∉ rest)
    (h : text ++ '<' :: rest = before ++ '<' :: rest') : before.length ≤ text.length := by
  rcases List.append_eq_append_iff.mp h with ⟨between, rfl, hbetween⟩ | ⟨between, rfl, -⟩
  · cases between with
    | nil => simp
    | cons c between =>
      obtain ⟨-, rfl⟩ := List.cons.inj hbetween
      exact absurd (List.mem_append_right between List.mem_cons_self) hrest
  · simp

/-- A tag that is not finished gives no text. -/
theorem Tag.chars_of_read_text {t : Tag} {taken n : ℕ} {state : TagState} {l chars : List Char}
    (h : t.read taken state l = .text chars n) : chars = [] := by
  induction l generalizing t taken state with
  | nil =>
    rw [Tag.read] at h
    cases h
    rfl
  | cons c l ih =>
    rw [Tag.read] at h
    split at h
    · exact ih h
    · cases h

/-- What follows `<` gives no text, unless the text ends there or nothing opens. -/
theorem markup_cases {l chars : List Char} {n : ℕ} (h : markup l = .text chars n) :
    chars = [] ∨ (l = ['/'] ∧ chars = ['<', '/'] ∧ n = 1) ∨ (chars = ['<'] ∧ l.head?.any opensMarkup = false) := by
  cases l with
  | nil =>
    cases h
    exact .inr (.inr ⟨rfl, rfl⟩)
  | cons c l =>
    unfold markup at h
    dsimp only at h
    split_ifs at h with halpha hslash hbang hquestion
    · exact .inl (Tag.chars_of_read_text h)
    · cases l with
      | nil =>
        cases h
        exact .inr (.inl ⟨by rw [hslash], rfl, rfl⟩)
      | cons x l =>
        unfold closing at h
        dsimp only at h
        split_ifs at h
        · exact .inl (Tag.chars_of_read_text h)
        · cases h
          exact .inl rfl
    · unfold declaration at h
      split_ifs at h <;> cases h <;> exact .inl rfl
    · cases h
      exact .inl rfl
    · cases h
      exact .inr (.inr ⟨rfl, by simp [opensMarkup, halpha, hslash, hbang, hquestion]⟩)

namespace Reader

variable {r : Reader} {c : Char} {l text rest chars : List Char} {n : ℕ} {t : Tag}

/-- A named reference is one of the table. -/
theorem named_of_namedReference (h : r.namedReference l = some (text, n)) :
    ∃ name, name <+: l ∧ r.named name = some text ∧ name.length = n := by
  obtain ⟨name, hname, hmap⟩ := List.exists_of_findSome?_eq_some h
  obtain ⟨found, hnamed, heq⟩ := Option.map_eq_some_iff.mp hmap
  cases heq
  exact ⟨name, (List.mem_inits _ _).mp (List.mem_reverse.mp hname), hnamed, rfl⟩

/-- A numeric reference stands for one character and takes no more than there is. -/
theorem numericReference_spec {isDigit : Char → Bool} {base start : ℕ}
    (h : r.numericReference isDigit base start l = some (text, n)) : text.length ≤ n ∧ n ≤ start + l.length := by
  unfold numericReference at h
  dsimp only at h
  split_ifs at h with hdigits hsemicolon
  · cases h
    have hpos := List.length_pos_of_ne_nil hdigits
    have hleft : (l.drop (l.takeWhile isDigit).length).length ≠ 0 := by
      intro hnil
      simp [List.length_eq_zero_iff.mp hnil] at hsemicolon
    rw [List.length_drop] at hleft
    simp only [List.length_cons, List.length_nil]
    omega
  · cases h
    have hpos := List.length_pos_of_ne_nil hdigits
    have hle := (List.takeWhile_prefix (l := l) isDigit).length_le
    simp only [List.length_cons, List.length_nil]
    omega

/-- A named reference is at least as long as what it stands for and takes no more than there is. -/
theorem namedReference_spec (h : r.namedReference l = some (text, n)) : text.length ≤ n ∧ n ≤ l.length := by
  obtain ⟨name, hprefix, hnamed, rfl⟩ := named_of_namedReference h
  exact ⟨(r.named_length hnamed).le, hprefix.length_le⟩

/-- A reference, without its `&`, is at least as long as what it stands for and takes no more than there is. -/
theorem reference_spec (h : r.reference l = some (text, n)) : text.length ≤ n ∧ n ≤ l.length := by
  unfold reference at h
  split at h
  · split_ifs at h
    · have hspec := numericReference_spec h
      simp only [List.length_cons]
      omega
    · have hspec := numericReference_spec h
      simp only [List.length_cons] at hspec ⊢
      omega
    · exact namedReference_spec h
  · exact namedReference_spec h

/-- Nothing that is read gives more text than it takes. -/
theorem length_le_of_read (h : r.read c l = .text chars n) : chars.length ≤ n + 1 := by
  unfold read at h
  split_ifs at h
  · rcases markup_cases h with rfl | ⟨-, rfl, rfl⟩ | ⟨rfl, -⟩ <;> simp
  · split at h
    · next hreference =>
      cases h
      exact (reference_spec hreference).1.trans (Nat.le_succ n)
    · cases h
      simp
  all_goals
    cases h
    simp

/-- Only `<` starts a tag. -/
theorem eq_of_read_tag (h : r.read c l = .tag t n) : c = '<' := by
  by_contra hc
  unfold read at h
  rw [if_neg hc] at h
  split_ifs at h
  split at h <;> cases h

/-- The first tag starts at a `<` with at least as many characters before it as are read before the tag. -/
theorem length_le_of_tokens {after : List Token} (h : r.tokens 0 l = text.map .char ++ .tag t :: after) :
    ∃ before rest, l = before ++ '<' :: rest ∧ text.length ≤ before.length := by
  induction hlength : l.length using Nat.strong_induction_on generalizing l text with
  | _ size ih =>
    cases l with
    | nil => simp [tokens] at h
    | cons c l =>
      cases hread : r.read c l with
      | tag t' n =>
        obtain ⟨after', htokens⟩ := tokens_of_tag hread
        obtain rfl := eq_of_read_tag hread
        refine ⟨[], l, rfl, ?_⟩
        cases text with
        | nil => rfl
        | cons c' text => simp [htokens] at h
      | text chars n =>
        rw [tokens_of_text hread] at h
        obtain ⟨later, rfl, hlater⟩ := exists_append_of_map_char h
        have hsmaller : (l.drop n).length < size := by
          rw [← hlength, List.length_drop, List.length_cons]
          omega
        obtain ⟨before, rest, hdrop, hle⟩ := ih _ hsmaller hlater rfl
        obtain ⟨taken, rfl, rfl⟩ := exists_append_of_drop hdrop
        refine ⟨c :: taken ++ before, rest, by simp, ?_⟩
        have hchars := length_le_of_read hread
        simp only [List.length_append, List.length_cons]
        omega

/-- The digits of a number end where something else starts. -/
theorem numericReference_append {isDigit : Char → Bool} (hdigit : isDigit '<' = false) (base start : ℕ)
    (l rest : List Char) :
    r.numericReference isDigit base start (l ++ '<' :: rest) = r.numericReference isDigit base start l := by
  have hdigits : (l ++ '<' :: rest).takeWhile isDigit = l.takeWhile isDigit := by
    induction l with
    | nil => simp [hdigit]
    | cons c l ih => simp [List.takeWhile_cons, ih]
  have hsemicolon : ((l ++ '<' :: rest).drop (l.takeWhile isDigit).length).head? = some ';' ↔
      (l.drop (l.takeWhile isDigit).length).head? = some ';' := by
    rw [List.drop_append_of_le_length (List.takeWhile_prefix _).length_le]
    cases l.drop (l.takeWhile isDigit).length <;> simp
  simp only [numericReference, hdigits, hsemicolon]

/-- Only letters, digits and `;` are in the name of a reference. -/
theorem named_eq_none {name : List Char} (hc : (c.isAlphanum || c = ';') = false) (h : c ∈ name) :
    r.named name = none := by
  cases hnamed : r.named name with
  | none => rfl
  | some text =>
    have hchar := List.all_eq_true.mp (r.named_chars hnamed) c h
    exact absurd (hchar.symm.trans hc) (by decide)

/-- The name of a reference ends before `<`. -/
theorem namedReference_append (l rest : List Char) : r.namedReference (l ++ '<' :: rest) = r.namedReference l := by
  have hnone : ((('<' :: rest).inits.tail.map (l ++ ·)).reverse.findSome? fun name =>
      (r.named name).map fun text => (text, name.length)) = none := by
    refine List.findSome?_eq_none_iff.mpr fun name hname => ?_
    obtain ⟨later, hlater, rfl⟩ := List.mem_map.mp (List.mem_reverse.mp hname)
    obtain ⟨inner, -, rfl⟩ : ∃ inner, inner <+: rest ∧ '<' :: inner = later := by simpa using hlater
    rw [named_eq_none (show _ = false by decide) (List.mem_append_right l List.mem_cons_self)]
    rfl
  rw [namedReference, List.inits_append, List.reverse_append, List.findSome?_append, hnone]
  rfl

/-- A lone `#` is no reference. -/
theorem namedReference_number : r.namedReference ['#'] = none := by
  cases hreference : r.namedReference ['#'] with
  | none => rfl
  | some found =>
    obtain ⟨name, hprefix, hnamed, -⟩ := named_of_namedReference hreference
    cases name with
    | nil => exact absurd (r.named_length hnamed) (Nat.not_lt_zero _)
    | cons c name =>
      obtain ⟨rfl, -⟩ := List.cons_prefix_cons.mp hprefix
      rw [named_eq_none (show _ = false by decide) List.mem_cons_self] at hnamed
      cases hnamed

/-- A reference ends before `<`. -/
theorem reference_append (l rest : List Char) : r.reference (l ++ '<' :: rest) = r.reference l := by
  match l with
  | [] =>
    cases rest with
    | nil => exact namedReference_append [] []
    | cons x rest => exact namedReference_append [] (x :: rest)
  | [c] =>
    by_cases hc : c = '#'
    · subst hc
      calc
        r.reference (['#'] ++ '<' :: rest) = r.numericReference Char.isDigit 10 1 ([] ++ '<' :: rest) := rfl
        _ = none := numericReference_append rfl 10 1 [] rest
        _ = r.reference ['#'] := namedReference_number.symm
    · simp only [List.cons_append, List.nil_append, reference, if_neg hc]
      exact namedReference_append [c] rest
  | c :: x :: l =>
    simp only [List.cons_append, reference]
    rw [numericReference_append (by decide), ← List.cons_append, numericReference_append (by decide),
      ← List.cons_append, namedReference_append]

/-- What does not open anything is read as itself. -/
theorem read_of_not_opens (h : r.opens (c :: l) = false) (rest : List Char) :
    r.read c (l ++ '<' :: rest) = .text [c] 0 := by
  simp only [opens] at h
  unfold read
  split_ifs at h ⊢ with hlt hamp hcr hnul
  · subst hlt
    cases l with
    | nil => rfl
    | cons x l =>
      simp only [List.head?_cons, Option.any_some, opensMarkup, Bool.or_eq_false_iff, decide_eq_false_iff_not] at h
      simp [markup, h]
  · rw [reference_append, Option.isNone_iff_eq_none.mp (Option.isSome_eq_false_iff.mp h), hamp]
  all_goals simp_all

/-- What opens is a tag, or takes more than it gives, or replaces a carriage return. -/
theorem read_of_opens (h : r.opens (c :: l) = true) (rest : List Char) :
    (∃ t n, r.read c (l ++ '<' :: rest) = .tag t n) ∨
    (∃ chars n, r.read c (l ++ '<' :: rest) = .text chars n ∧ chars.length ≤ n) ∨
      c = '\r' ∧ ∃ n, r.read c (l ++ '<' :: rest) = .text ['\n'] n := by
  simp only [opens] at h
  unfold read
  split_ifs at h ⊢ with hlt hamp hcr hnewline hnul
  · cases l with
    | nil => cases h
    | cons x l =>
      cases hmarkup : markup (x :: l ++ '<' :: rest) with
      | tag t n => exact .inl ⟨t, n, rfl⟩
      | text chars n =>
        rcases markup_cases hmarkup with rfl | ⟨hshort, -⟩ | ⟨-, hnone⟩
        · exact .inr (.inl ⟨[], n, rfl, Nat.zero_le n⟩)
        · simp at hshort
        · exact absurd (h.symm.trans hnone) (by decide)
  · obtain ⟨⟨text, n⟩, hreference⟩ := Option.isSome_iff_exists.mp h
    rw [reference_append, hreference]
    exact .inr (.inl ⟨text, n, rfl, (reference_spec hreference).1⟩)
  · exact .inr (.inr ⟨hcr, 1, rfl⟩)
  · exact .inr (.inr ⟨hcr, 0, rfl⟩)
  · exact .inr (.inl ⟨[], 0, rfl, Nat.zero_le 0⟩)
  · simp [hcr, hnul] at h

/-- A longer text is plain if nothing opens at its first character and the rest is plain. -/
theorem plainText_cons : r.PlainText (c :: l) ↔ r.opens (c :: l) = false ∧ r.PlainText l := by
  simp [PlainText]

/-- Plain text before `<` is read as its own characters. -/
theorem tokens_of_plainText (h : r.PlainText text) (rest : List Char) :
    r.tokens 0 (text ++ '<' :: rest) = text.map .char ++ r.tokens 0 ('<' :: rest) := by
  induction text with
  | nil => rfl
  | cons c text ih =>
    obtain ⟨hfirst, hlater⟩ := plainText_cons.mp h
    rw [List.cons_append, tokens_of_text (read_of_not_opens hfirst rest), List.drop_zero, ih hlater]
    rfl

/-- The end of a plain text is plain. -/
theorem PlainText.drop (h : r.PlainText text) (n : ℕ) : r.PlainText (text.drop n) := by
  intro l hl
  have hsuffix := ((List.mem_tails _ _).mp hl).trans (List.drop_suffix n text)
  exact h l ((List.mem_tails _ _).mpr hsuffix)

/-- A `&` before plain text is read as characters only, whether or not it starts a reference. -/
theorem tokens_of_ampersand (h : r.PlainText text) (rest : List Char) : ∃ chars : List Char,
    r.tokens 0 ('&' :: text ++ '<' :: rest) = chars.map .char ++ r.tokens 0 ('<' :: rest) := by
  obtain ⟨chars, n, hread, hn⟩ : ∃ chars n, r.read '&' (text ++ '<' :: rest) = .text chars n ∧ n ≤ text.length := by
    cases hreference : r.reference text with
    | none => exact ⟨['&'], 0, by simp [read, reference_append, hreference], Nat.zero_le _⟩
    | some found =>
      obtain ⟨chars, n⟩ := found
      exact ⟨chars, n, by simp [read, reference_append, hreference], (reference_spec hreference).2⟩
  refine ⟨chars ++ text.drop n, ?_⟩
  rw [List.cons_append, tokens_of_text hread, List.drop_append_of_le_length hn, tokens_of_plainText (h.drop n),
    List.map_append, List.append_assoc]

/-- Text before the last `<` is plain if it is read as its own characters and then a tag. -/
theorem plainText_of_tokens (hrest : '<' ∉ rest) {after : List Token}
    (h : r.tokens 0 (text ++ '<' :: rest) = text.map .char ++ .tag t :: after) : r.PlainText text := by
  induction text with
  | nil => simp [PlainText, opens]
  | cons c text ih =>
    rw [List.cons_append] at h
    cases hopens : r.opens (c :: text) with
    | false =>
      rw [tokens_of_text (read_of_not_opens hopens rest)] at h
      exact plainText_cons.mpr ⟨hopens, ih (List.cons.inj h).2⟩
    | true =>
      exfalso
      rcases read_of_opens hopens rest with ⟨t', n, hread⟩ | ⟨chars, n, hread, hle⟩ | ⟨rfl, n, hread⟩
      · obtain ⟨after', htokens⟩ := tokens_of_tag hread
        simp [htokens] at h
      · rw [tokens_of_text hread] at h
        obtain ⟨later, htext, hlater⟩ := exists_append_of_map_char h
        obtain ⟨before, rest', hdrop, hbefore⟩ := length_le_of_tokens hlater
        obtain ⟨taken, happend, rfl⟩ := exists_append_of_drop hdrop
        rw [← List.append_assoc] at happend
        have hlast := length_le_of_append_eq hrest happend
        have hlength := congrArg List.length htext
        simp only [List.length_append, List.length_cons] at hlast hlength
        omega
      · rw [tokens_of_text hread] at h
        simp at h

end Reader

/-- A document with a tag has text before its first tag. -/
theorem exists_text_of_tags {document : List Token} {t : Tag} {later : List Tag} (h : tags document = t :: later) :
    ∃ (text : List Char) (after : List Token), document = text.map .char ++ .tag t :: after := by
  induction document with
  | nil => cases h
  | cons token document ih =>
    cases token with
    | char c =>
      obtain ⟨text, after, rfl⟩ := ih h
      exact ⟨c :: text, after, rfl⟩
    | tag t' =>
      obtain ⟨rfl, -⟩ := List.cons.inj h
      exact ⟨[], document, rfl⟩

/-- Characters are no tags. -/
theorem tags_map_char (text : List Char) : tags (text.map .char) = [] := by
  simp [tags]

/-- The tags of one document after the other. -/
theorem tags_append (document document' : List Token) :
    tags (document ++ document') = tags document ++ tags document' := List.filterMap_append

/-- The text up to the end of an element is that before its end tag. -/
theorem textUntilEnd_of_end {t : Tag} (ht : t.isEnd = true) (text : List Char) (after : List Token) :
    textUntilEnd t.name (text.map .char ++ .tag t :: after) = text := by
  induction text with
  | nil => simp [textUntilEnd, characters, Token.ends, ht]
  | cons c text ih => exact congrArg (c :: ·) ih

/-- The text of an element starts after its start tag. -/
theorem elementText_of_start {name : List Char} {t : Tag} {before : List Token}
    (hbefore : ∀ token ∈ before, token.starts name = false) (ht : (Token.tag t).starts name = true)
    (after : List Token) : elementText name (before ++ .tag t :: after) = textUntilEnd name after := by
  have hopen : (Token.tag t).ends name = false := by
    revert ht
    cases hend : t.isEnd <;> simp [Token.starts, Token.ends, hend]
  rw [elementText, List.dropWhile_append_of_pos (by simpa using hbefore)]
  simp [ht, textUntilEnd, hopen, characters]

/-- The text before the end tag of an element is read as its own characters, and no tag is read in it, exactly
when it is plain. -/
theorem plainText_iff {r : Reader} {t : Tag} {rest text : List Char} (ht : t.isEnd = true) (hrest : '<' ∉ rest)
    (hclose : r.tokens 0 ('<' :: rest) = [.tag t]) :
    (tags (r.tokens 0 (text ++ '<' :: rest)) = [t] ∧ textUntilEnd t.name (r.tokens 0 (text ++ '<' :: rest)) = text) ↔
      r.PlainText text := by
  constructor
  · rintro ⟨htags, htext⟩
    obtain ⟨text', after, htokens⟩ := exists_text_of_tags htags
    rw [htokens, textUntilEnd_of_end ht] at htext
    exact r.plainText_of_tokens hrest (htext ▸ htokens)
  · intro hplain
    rw [Reader.tokens_of_plainText hplain, hclose, textUntilEnd_of_end ht, tags_append, tags_map_char]
    exact ⟨rfl, rfl⟩

end HtmlReader
