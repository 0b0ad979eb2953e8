-- Automatic links. What stands between angle brackets is a link if it is an absolute address,
-- which leads to itself, or an e-mail address. A link is written so on the strength of its
-- scheme alone, and without the scheme of mail, so it is lost if the address has a character
-- that no automatic link may hold, or if what the scheme of mail leaves is no e-mail address.
import MarkupTree.Output
import MarkupTree.Proofs.CommonMark.Margins
import MarkupTree.Proofs.Document.Sessions
import MarkupTree.Proofs.Layout.Ends

namespace MarkupTree

namespace CommonMark

open Layout

variable {o : Options} {width : Nat} {s : Site} {target url : Text}

/-! ## Between angle brackets -/

def isSchemeChar (c : Char) : Bool := c.isAlphanum || c == '+' || c == '.' || c == '-'

/-- The text begins with a scheme, which is a letter and up to 31 more characters, and a colon. -/
def HasScheme (t : Text) : Prop :=
  ∃ scheme rest, t = scheme ++ ':' :: rest ∧ (2 ≤ scheme.length ∧ scheme.length ≤ 32) ∧
    scheme.head?.any Char.isAlpha = true ∧ scheme.all isSchemeChar = true

/-- A character that no absolute address holds between angle brackets. -/
def spoilsAddress (c : Char) : Bool := Text.isAsciiControl c || c == ' ' || c == '<' || c == '>'

structure IsAbsolute (t : Text) : Prop where
  scheme : HasScheme t
  whole : ∀ c ∈ t, spoilsAddress c = false

/-- An e-mail address: a user at a domain. -/
structure IsMail (t : Text) : Prop where
  parts : ∃ user domain, t = user ++ '@' :: domain ∧ (user ≠ [] ∧ '@' ∉ user) ∧ domain ≠ [] ∧ '@' ∉ domain
  whole : ∀ c ∈ t, Text.isBlank c = false ∧ c ≠ '<' ∧ c ≠ '>'

/-- Between angle brackets the text leads to `url`. What could be read as an address of both kinds
is an absolute one. -/
def LeadsTo (t url : Text) : Prop :=
  IsAbsolute t ∧ url = t ∨ IsMail t ∧ ¬IsAbsolute t ∧ url = "mailto:".toList ++ t

/-- The address is still known when it stands between angle brackets, there without the scheme
of mail. -/
def KeepsInBrackets (url : Text) : Prop :=
  match Text.after? "mailto:".toList url with
  | none => ∀ c ∈ url, spoilsAddress c = false
  | some address => IsMail address ∧ ¬IsAbsolute address

/-! ## The addresses that are written so -/

theorem hasScheme_sound (h : hasScheme url = true) : HasScheme url := by
  simp only [hasScheme, Bool.and_eq_true, decide_eq_true_eq] at h
  obtain ⟨⟨⟨⟨hcolon, hlow⟩, hhigh⟩, hletter⟩, hall⟩ := h
  have hrest : ∃ rest, url.dropWhile (· != ':') = ':' :: rest := by
    have hne : url.dropWhile (· != ':') ≠ [] := by
      intro hnil
      have hnone := List.dropWhile_eq_nil_iff.mp hnil ':' (List.contains_iff_mem.mp hcolon)
      simp at hnone
    obtain ⟨c, rest, hrest⟩ := List.exists_cons_of_ne_nil hne
    have hc := List.head_dropWhile_not (· != ':') hne
    simp only [hrest, List.head_cons, bne_eq_false_iff_eq] at hc
    exact ⟨rest, hc ▸ hrest⟩
  obtain ⟨rest, hrest⟩ := hrest
  refine ⟨url.takeWhile (· != ':'), rest, ?_, ⟨hlow, hhigh⟩, hletter, hall⟩
  rw [← hrest, List.takeWhile_append_dropWhile]

/-- A link that is written between angle brackets has a scheme, and stands there without the
scheme of mail. -/
theorem of_autolink? (h : autolink? s = some target) :
    HasScheme s.content.url ∧ target = (Text.after? "mailto:".toList s.content.url).getD s.content.url := by
  unfold autolink? at h
  dsimp only at h
  split at h
  · cases h
  · rename_i hscheme
    rw [Bool.or_eq_true, not_or] at hscheme
    refine ⟨hasScheme_sound (by simpa using hscheme.1), ?_⟩
    split at h
    · split at h
      · exact (Option.some.inj h).symm
      · cases h
    · cases h

theorem eq_append_of_after? {lead t rest : Text} (h : Text.after? lead t = some rest) : t = lead ++ rest := by
  unfold Text.after? at h
  split at h
  · obtain ⟨tail, rfl⟩ := List.isPrefixOf_iff_prefix.mp ‹_›
    rw [List.drop_left, Option.some.injEq] at h
    rw [h]
  · cases h

/-- A text without the scheme of mail is not the same with it. -/
theorem ne_mail_append (t : Text) : t ≠ "mailto:".toList ++ t := by
  intro h
  have hlength := congrArg List.length h
  rw [List.length_append, String.length_toList] at hlength
  have hpos : 0 < "mailto:".length := by decide
  omega

/-- A link that is written between angle brackets is one that leads to its address, if the
address is still known there. -/
theorem leadsTo_iff (h : autolink? s = some target) :
    LeadsTo target s.content.url ↔ KeepsInBrackets s.content.url := by
  obtain ⟨hscheme, htarget⟩ := of_autolink? h
  generalize s.content.url = url at hscheme htarget
  unfold KeepsInBrackets
  rcases hafter : Text.after? "mailto:".toList url with _ | address
  · rw [hafter, Option.getD_none] at htarget
    subst htarget
    constructor
    · rintro (⟨habsolute, -⟩ | ⟨-, -, heq⟩)
      · exact habsolute.whole
      · exact absurd heq (ne_mail_append _)
    · intro hwhole
      exact Or.inl ⟨⟨hscheme, hwhole⟩, rfl⟩
  · have hurl := eq_append_of_after? hafter
    rw [hafter, Option.getD_some] at htarget
    subst htarget
    constructor
    · rintro (⟨-, heq⟩ | ⟨hmail, hnot, -⟩)
      · exact absurd (heq.symm.trans hurl) (ne_mail_append _)
      · exact ⟨hmail, hnot⟩
    · rintro ⟨hmail, hnot⟩
      exact Or.inr ⟨hmail, hnot, hurl⟩

/-! ## The page of a link -/

/-- What a link between angle brackets writes. -/
def bracketed (s : Site) (target : Text) : List Instruction :=
  [tightness s, lit ['<'], lit target, lit ['>'], tightness s]

theorem content_of_link (hlink : s.kind = .link) : ∃ url title, s.content = .link url title := by
  have hkind : s.content.kind = .link := hlink
  cases hcontent : s.content with
  | link url title => exact ⟨url, title, rfl⟩
  | _ =>
    rw [hcontent] at hkind
    cases hkind

theorem visit_of_autolink? (hlink : s.kind = .link) (h : autolink? s = some target) :
    s.visit (visitor o width) = bracketed s target := by
  obtain ⟨url, title, hcontent⟩ := content_of_link hlink
  have hdescends : (visitor o width).descends s = false := by simp [visitor, hlink, h]
  rw [Site.visit_eq, hdescends]
  simp [visitor, enter, exit, enterContent, exitContent, hlink, hcontent, h, bracketed]

theorem render_of_autolink? (hlink : s.kind = .link) (h : autolink? s = some target) :
    render o width s = '<' :: target ++ ['>', '\n'] := by
  let p : Page := { tightItem := inTightItem (s.node :: s.ancestors) }
  have hholds : Page.Holds (['<'] ++ target ++ ['>'])
      (p.run (format o width) [lit ['<'], lit target, lit ['>']]) :=
    ((Page.Flat.holds ⟨rfl, rfl⟩ rfl ['<']).lit target).lit ['>']
  have hlast : (['<'] ++ target ++ ['>']).getLast? = some '>' := List.getLast?_concat
  have hfinish := Page.finish_eq (p.run (format o width) [lit ['<'], lit target, lit ['>']])
  rw [hholds.text, Text.ended_lines_of_getLast? hlast (by decide)] at hfinish
  unfold render Layout.render
  dsimp only
  rw [visit_of_autolink? hlink h]
  exact hfinish.trans (by simp)

theorem head?_render_of_link (hlink : s.kind = .link) (h : autolink? s = none) :
    (render o width s).head? = some '[' := by
  obtain ⟨url, title, hcontent⟩ := content_of_link hlink
  let p : Page := { tightItem := inTightItem (s.node :: s.ancestors) }
  have hholds : Page.Holds ['['] (p.follow (format o width) (lit ['['])) := Page.Flat.holds ⟨rfl, rfl⟩ rfl ['[']
  have henter : (visitor o (effectiveWidth o width)).enter s = [tightness s, lit ['[']] := by
    simp [visitor, enter, enterContent, hlink, hcontent, h]
  obtain ⟨more, hmore⟩ := (Site.Enters.start (v := visitor o (effectiveWidth o width)) (s := s)).visit_eq_enter
  rw [henter, List.nil_append] at hmore
  obtain ⟨rest, hrest⟩ := Page.text_prefix_render (f := format o width) hholds.flat.tail more
  have hrender : render o width s = ((p.follow (format o width) (lit ['['])).run (format o width) more).finish := by
    unfold render Layout.render
    dsimp only
    rw [hmore]
    rfl
  rw [hrender, ← hrest, hholds.text]
  rfl

/-- A link is the whole page in angle brackets, if and only if it is written as an automatic one. -/
theorem render_eq_iff_autolink? (hlink : s.kind = .link) :
    render o width s = '<' :: target ++ ['>', '\n'] ↔ autolink? s = some target := by
  constructor
  · intro hrender
    rcases hauto : autolink? s with _ | t
    · have hhead : (render o width s).head? = some '[' := head?_render_of_link hlink hauto
      rw [hrender] at hhead
      cases hhead
    · have heq := (render_of_autolink? hlink hauto).symm.trans hrender
      have ht : t = target := by simpa using heq
      rw [ht]
  · exact render_of_autolink? hlink

end CommonMark

namespace Document

open CommonMark

/-- In every session, what a link has between angle brackets leads to its address, if and only if the
address is still known there. The brackets are the same in the page of any node above the link. -/
theorem Session.autolinks_lead_back (x : Session) {id : NodeId} {s : Site} (hs : x.document.site? id = some s)
    (hlink : s.kind = .link) (o : Options) (width : Nat) :
    ∃ page, x.document.render? id .commonMark o width = some page ∧
      ∀ target, page = '<' :: target ++ ['>', '\n'] →
        (LeadsTo target s.content.url ↔ KeepsInBrackets s.content.url) ∧
          ∀ r sites written, r.Enters (visitor o (effectiveWidth o width)) sites written s →
            ∃ rest, instructions o width r = written ++ bracketed s target ++ rest := by
  refine ⟨render o width s, by rw [render?, hs]; rfl, ?_⟩
  intro target hpage
  have hauto := (render_eq_iff_autolink? hlink).mp hpage
  refine ⟨leadsTo_iff hauto, ?_⟩
  intro r sites written henters
  obtain ⟨rest, hvisit⟩ := henters.visit_eq
  rw [visit_of_autolink? hlink hauto] at hvisit
  exact ⟨rest, hvisit⟩

/-- A link to an e-mail address in a paragraph. -/
theorem autolinks_lead_back_mail :
    let x : Session := ⟨.new, [.create .paragraph, .appendChild 0 1, .create .link, .appendChild 1 2,
      .set 2 (.url (some "mailto:a@b".toList)), .create .text, .appendChild 2 3,
      .set 3 (.literal (some "a@b".toList))]⟩
    ∃ s, (x.document.site? 2 = some s ∧ s.kind = .link) ∧
      ∃ page, x.document.render? 2 .commonMark {} 80 = some page ∧
        ∀ target, page = '<' :: target ++ ['>', '\n'] →
          (LeadsTo target s.content.url ↔ KeepsInBrackets s.content.url) ∧
            ∀ r sites written, r.Enters (visitor {} (effectiveWidth {} 80)) sites written s →
              ∃ rest, instructions {} 80 r = written ++ bracketed s target ++ rest := by
  intro x
  have hkind : (x.document.site? 2).map Site.kind = some .link := by decide +kernel
  obtain ⟨s, hs, hlink⟩ := Option.map_eq_some_iff.mp hkind
  exact ⟨s, ⟨hs, hlink⟩, x.autolinks_lead_back hs hlink {} 80⟩

/-- A link to a mailbox without a domain is written in angle brackets, where it leads nowhere. -/
theorem autolink_leads_nowhere :
    let source := Source.ofText "[abc](mailto:abc)\n".toList
    let inner := Outline.enclose (.link false "mailto:abc".toList []) 0 17 0 17 (.leaf 1 4 (.text "abc".toList) .nil) .nil
    let o := Outline.enclose .paragraph 0 18 0 18 inner .nil
    let d := ofEvents source o.events
    (o.fits .blocks = true ∧ (d.site? 2).map Site.content = some (.link "mailto:abc".toList []) ∧
      d.render? 2 .commonMark {} 80 = some "<abc>\n".toList) ∧
      ∀ url, ¬LeadsTo "abc".toList url := by
  intro source inner o d
  refine ⟨by decide +kernel, ?_⟩
  rintro url (⟨⟨hscheme, -⟩, -⟩ | ⟨⟨hparts, -⟩, -⟩)
  · obtain ⟨scheme, rest, heq, -⟩ := hscheme
    have hcolon : ':' ∈ "abc".toList := heq ▸ by simp
    exact absurd hcolon (by decide)
  · obtain ⟨user, domain, heq, -⟩ := hparts
    have hat : '@' ∈ "abc".toList := heq ▸ by simp
    exact absurd hat (by decide)

end Document

end MarkupTree
