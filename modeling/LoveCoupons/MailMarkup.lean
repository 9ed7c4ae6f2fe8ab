import LoveCoupons.Lib.PlainText
import LoveCoupons.Lib.Replace
import LoveCoupons.ViewModels

/-!
# The text of a coupon in a mail

The mail about a coupon is an HTML document: a fixed paragraph, and a heading with the description of the coupon
as its content. The description is put between the tags as it is, without escaping. So the partner's text stays
text exactly when an HTML reader finds nothing but characters in it: no tag, comment or other markup, and no
character reference.
-/

namespace LoveCoupons

open HtmlReader

/-- The document that the recipient of a mail is shown. -/
def MailComposer.document (r : Reader) (composer : MailComposer) : List Token :=
  if composer.isHTML then r.tokens 0 composer.body.toList else composer.body.toList.map .char

/-- The mail about a coupon, once the e-mail of the pair is received. -/
def couponMail (vm : PairCouponsViewModel) (coupon : Coupon) (email : Option String) : MailComposer :=
  makeUIViewController (vm.showSendMailPicker coupon email).mailDataStore

/-- The start tag of the template's paragraph. -/
def paragraphTag : Tag := { isEnd := false, name := "p".toList }

/-- The end tag of the template's paragraph. -/
def paragraphEnd : Tag := { isEnd := true, name := "p".toList }

/-- The start tag of the template's heading. -/
def headingTag : Tag where
  isEnd := false
  name := "h3".toList
  attributes := [("style".toList, "text-align: center; color: #FF5023;".toList)]

/-- The end tag of the template's heading. -/
def headingEnd : Tag := { isEnd := true, name := "h3".toList }

/-- The tags of the template. -/
def templateTags : List Tag := [paragraphTag, paragraphEnd, headingTag, headingEnd]

/-- The mail has the tags of the template and its heading has the given text. -/
def MailComposer.ShowsText (r : Reader) (composer : MailComposer) (text : String) : Prop :=
  tags (composer.document r) = templateTags ∧ elementText "h3".toList (composer.document r) = text.toList

/-- The mails about two coupons have the same tags, those of the template, and each shows the description of its
coupon. -/
def TextsInert (r : Reader) (mail mail' : MailComposer) (coupon coupon' : Coupon) : Prop :=
  tags (mail.document r) = tags (mail'.document r) ∧ mail.ShowsText r coupon.description ∧
    mail'.ShowsText r coupon'.description

variable {r : Reader}

/-- The end tag of the heading is read as such. -/
theorem tokens_headingEnd : r.tokens 0 "</h3>".toList = [.tag headingEnd] := rfl

/-- The start tag of the heading is read as such. -/
theorem tokens_headingTag (rest : List Char) :
    r.tokens 0 ("<h3 style=\"text-align: center; color: #FF5023;\">".toList ++ rest) =
      .tag headingTag :: r.tokens 0 rest :=
  Reader.tokens_of_ordinary (l := "h3 style=\"text-align: center; color: #FF5023;\">".toList) rfl rfl

/-- The template's paragraph is read as a start tag, characters and an end tag. -/
theorem tokens_paragraph (rest : List Char) : ∃ space : List Char,
    r.tokens 0 ("<p>&nbsp;</p>\n".toList ++ rest) = .tag paragraphTag ::
      (space.map .char ++ .tag paragraphEnd :: .char '\n' :: r.tokens 0 rest) := by
  have hplain : r.PlainText "nbsp;".toList := by
    change ∀ l ∈ ['n', 'b', 's', 'p', ';'].tails, r.opens l = false
    simp [Reader.opens]
  obtain ⟨space, hspace⟩ := Reader.tokens_of_ampersand hplain ("/p>\n".toList ++ rest)
  refine ⟨space, ?_⟩
  calc
    r.tokens 0 ("<p>&nbsp;</p>\n".toList ++ rest)
      = .tag paragraphTag :: r.tokens 0 ("&nbsp;</p>\n".toList ++ rest) :=
        Reader.tokens_of_ordinary (l := "p>".toList) rfl rfl
    _ = .tag paragraphTag :: (space.map .char ++ r.tokens 0 ("</p>\n".toList ++ rest)) :=
        congrArg (.tag paragraphTag :: ·) hspace
    _ = .tag paragraphTag :: (space.map .char ++ .tag paragraphEnd :: r.tokens 0 ('\n' :: rest)) :=
        congrArg (fun later => .tag paragraphTag :: (space.map .char ++ later))
          (Reader.tokens_of_ordinary (l := "/p>".toList) rfl rfl)
    _ = .tag paragraphTag :: (space.map .char ++ .tag paragraphEnd :: .char '\n' :: r.tokens 0 rest) := rfl

/-- The template is read as its own tags around what the description is read as. -/
theorem document_couponMail (vm : PairCouponsViewModel) (coupon : Coupon) (email : Option String) :
    ∃ space : List Char, (couponMail vm coupon email).document r = .tag paragraphTag ::
      (space.map .char ++ .tag paragraphEnd :: .char '\n' :: .tag headingTag ::
        r.tokens 0 (coupon.description.toList ++ "</h3>".toList)) := by
  obtain ⟨space, hspace⟩ := tokens_paragraph (r := r)
    ("<h3 style=\"text-align: center; color: #FF5023;\">".toList ++ (coupon.description.toList ++ "</h3>".toList))
  rw [tokens_headingTag] at hspace
  refine ⟨space, ?_⟩
  rw [← hspace]
  simp only [MailComposer.document, couponMail, makeUIViewController, String.toList_append, List.append_assoc]
  rfl

/-- A mail keeps to its template exactly when the description is plain text. -/
theorem showsText_iff (vm : PairCouponsViewModel) (coupon : Coupon) (email : Option String) :
    (couponMail vm coupon email).ShowsText r coupon.description ↔ r.PlainText coupon.description.toList := by
  obtain ⟨space, hdocument⟩ := document_couponMail (r := r) vm coupon email
  have htags : tags ((couponMail vm coupon email).document r) = templateTags ↔
      tags (r.tokens 0 (coupon.description.toList ++ "</h3>".toList)) = [headingEnd] := by
    rw [hdocument]
    simp [tags, templateTags]
  have htext : elementText "h3".toList ((couponMail vm coupon email).document r) =
      textUntilEnd headingEnd.name (r.tokens 0 (coupon.description.toList ++ "</h3>".toList)) := by
    have hbefore : ∀ token ∈ Token.tag paragraphTag :: (space.map .char ++ [.tag paragraphEnd, .char '\n']),
        token.starts "h3".toList = false := by
      intro token htoken
      simp only [List.mem_cons, List.mem_append, List.mem_map, List.not_mem_nil, or_false] at htoken
      rcases htoken with rfl | ⟨c, -, rfl⟩ | rfl | rfl <;> rfl
    have hheading := elementText_of_start (t := headingTag) hbefore rfl
      (r.tokens 0 (coupon.description.toList ++ "</h3>".toList))
    rw [List.cons_append, List.append_assoc] at hheading
    rw [hdocument]
    exact hheading
  rw [MailComposer.ShowsText, htags, htext]
  exact plainText_iff rfl (by decide) tokens_headingEnd

/-- The mails about two coupons have the same tags, those of the template, and show the descriptions, exactly
when both descriptions are plain text. -/
theorem coupon_text_inert_iff (r : Reader) (vm vm' : PairCouponsViewModel) (coupon coupon' : Coupon)
    (email email' : Option String) :
    TextsInert r (couponMail vm coupon email) (couponMail vm' coupon' email') coupon coupon' ↔
      r.PlainText coupon.description.toList ∧ r.PlainText coupon'.description.toList := by
  rw [← showsText_iff vm coupon email, ← showsText_iff vm' coupon' email', TextsInert]
  refine ⟨And.right, fun hshows => ⟨?_, hshows⟩⟩
  rw [hshows.1.1, hshows.2.1]

/-- The character references that every HTML reader knows. -/
def basicReferences : List (List Char × List Char) :=
  [("amp;".toList, ['&']), ("lt;".toList, ['<']), ("gt;".toList, ['>']), ("quot;".toList, ['\x22']),
    ("nbsp;".toList, ['\u00a0'])]

/-- The names are letters and a semicolon, and longer than what they stand for. -/
theorem basicReferences_lawful : ∀ entry ∈ basicReferences,
    (entry.1.all fun c => c.isAlphanum || c = ';') = true ∧ entry.2.length < entry.1.length := by
  decide

/-- A reader with few character references. -/
def basicReader : Reader where
  named name := basicReferences.lookup name
  character := Char.ofNat
  content _ l := l.map .char
  named_chars h := (basicReferences_lawful _ (Replace.mem_of_lookup h)).1
  named_length h := (basicReferences_lawful _ (Replace.mem_of_lookup h)).2

/-- A coupon as it is read from the store, with only a description. -/
def describedCoupon (description : String) : Coupon :=
  Coupon.ofData [(Coupon.descriptionKey, stringNode description)]

/-- A description with a tag adds the tag to the mail. -/
theorem bold_description_adds_tags :
    ¬ TextsInert basicReader (couponMail {} (describedCoupon "<b>tea</b>") (some "pair@host"))
      (couponMail {} (describedCoupon "tea") (some "pair@host")) (describedCoupon "<b>tea</b>")
      (describedCoupon "tea") := by
  rintro ⟨-, hshows, -⟩
  have hplain := (showsText_iff {} (describedCoupon "<b>tea</b>") (some "pair@host")).mp hshows
  exact absurd (hplain _ ((List.mem_tails _ _).mpr (List.suffix_refl _))) (by decide)

end LoveCoupons
