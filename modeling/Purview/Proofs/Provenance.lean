/-
Whatever reading a text yields points back into it. A reader goes along
the tokens of the text on a way that never leads back (`Reader.Trail`).
The names of the way are tokens of it in their order, so their spans are
as the tokens' are (`Reader.Trail.located`), and no report can point in
front of an earlier one (`Reader.Trail.pairwise`). That the tokens of a
text are where they say is known of every text; only a text that has
more bytes than there are offsets is not read by its tokens.
-/
import Purview.Proofs.Grammar
import Purview.Proofs.Lossless
import Purview.Proofs.Trails

namespace Purview

-- ================================================================ ways

namespace Reader.Trail

variable {stop : Nat} {ts us : List Token} {ms : List Mention}
  {ds : List Diagnostic}

/-- Along tokens that stand one behind the other, no report points in
front of one made before it. -/
theorem pairwise (h : Trail stop ts ms ds us)
    (hts : (ts.map Token.span).Pairwise Span.Before)
    (hstop : ∀ t ∈ ts, t.span.start ≤ stop) :
    (∀ d ∈ ds, (place stop ts).start ≤ d.span.start)
      ∧ ds.Pairwise fun d e => d.span.start ≤ e.span.start := by
  induction h with
  | stay => exact ⟨by simp, .nil⟩
  | @skip t ts _ _ _ _ ih | @take t _ ts _ _ _ _ ih =>
    obtain ⟨hfirst, hrest⟩ := List.pairwise_cons.1 hts
    obtain ⟨hplace, hds⟩ :=
      ih hrest fun u hu => hstop u (List.mem_cons_of_mem _ hu)
    refine ⟨fun d hd => Nat.le_trans ?_ (hplace d hd), hds⟩
    cases ts with
    | nil => exact hstop t List.mem_cons_self
    | cons u ts => exact Nat.le_of_lt (hfirst u.span (by simp)).1
  | @report ts issue _ _ _ _ ih =>
    obtain ⟨hplace, hds⟩ := ih hts hstop
    refine ⟨fun d hd => ?_, .cons hplace hds⟩
    rcases List.mem_cons.1 hd with rfl | hd
    · exact Nat.le_refl _
    · exact hplace d hd

end Reader.Trail

-- ============================================================ contents

/-- Mentions of names, as a text has them. -/
structure Located (text : String) (ms : List Mention) : Prop where
  /-- Each name is what the text has in the span of its mention. -/
  sliced : ∀ m ∈ ms, m.span.slice? text = some m.name
  /-- It has the form of a name and is not kept for the language. -/
  named : ∀ m ∈ ms, m.name.toList ∈ TokenKind.name.pattern
    ∧ ∀ kind, (m.name, kind) ∉ TokenKind.keywords
  /-- Each mention stands behind the one before. -/
  ordered : (ms.map Mention.span).Pairwise Span.Before

/-- So are some of them. -/
theorem Located.sublist {text : String} {ms ns : List Mention}
    (h : Located text ms) (hsub : ns.Sublist ms) : Located text ns where
  sliced m hm := h.sliced m (hsub.subset hm)
  named m hm := h.named m (hsub.subset hm)
  ordered := h.ordered.sublist (hsub.map _)

namespace Token

variable {text : String}

/-- The tokens that mean something are some of all, in their order. -/
theorem significant_sublist (text : String) :
    (significant text).Sublist (lex text) :=
  List.filter_sublist.trans (scan_begins_lex text).sublist

theorem pairwise_significant (text : String) :
    ((significant text).map span).Pairwise Span.Before :=
  (tiles_lex text).pairwise.sublist ((significant_sublist text).map _)

/-- No token starts behind the text. -/
theorem start_le_of_mem_significant {t : Token} (ht : t ∈ significant text) :
    t.span.start ≤ text.utf8ByteSize := by
  have hspan : t.span ∈ (lex text).map span :=
    List.mem_map_of_mem ((significant_sublist text).subset ht)
  have hbounds := (tiles_lex text).bounds.2 _ hspan
  omega

end Token

open Reader

/-- The names taken up on a way through a text are its own. -/
theorem Reader.Trail.located {text : String} {stop : Nat}
    {ms : List Mention} {ds : List Diagnostic} {us : List Token}
    (h : Trail stop (Token.significant text) ms ds us) :
    Located text ms := by
  obtain ⟨names, hsub, hnames, rfl⟩ := h.mentions
  have hlex {t : Token} (ht : t ∈ names) : t ∈ Token.lex text :=
    (Token.significant_sublist text).subset (hsub.subset ht)
  refine ⟨fun m hm => ?_, fun m hm => ?_, ?_⟩
  · obtain ⟨t, ht, rfl⟩ := List.mem_map.1 hm
    exact Token.slice?_span (hlex ht)
  · obtain ⟨t, ht, rfl⟩ := List.mem_map.1 hm
    have hmem : t.chars ∈ TokenKind.name.pattern :=
      hnames t ht ▸ Token.mem_pattern (hlex ht) (by simp [hnames t ht])
    refine ⟨hmem, fun kind hkind => ?_⟩
    have heq := (Token.kind_eq_iff (hlex ht) hmem hkind).2 rfl
    exact (TokenKind.pattern_of_mem_keywords hkind).2 (heq ▸ hnames t ht)
  · rw [List.map_map]
    exact (Token.pairwise_significant text).sublist (hsub.map _)

namespace Content

/-- The names that a content mentions, as a text has them. The name of a
descriptor may be missing, and then its first word stands for it. -/
def Stands (text : String) : Content → Prop
  | .ordinary b =>
    Located text (b.definitions.map Definition.mention)
      ∧ Located text (b.references.map Reference.mention)
  | .descriptor d =>
    Located text (d.dependencies.map Dependency.mention)
      ∧ (d.span.slice? text = some d.name
        ∨ d.name = "" ∧ ∃ word, (Token.significant text).head? = some word
          ∧ word.kind = Grammar.announcing d.kind ∧ d.span = word.span)

/-- What is taken up on a way through a text stands in it. -/
theorem Draws.stands {text : String} {ms : List Mention} {c : Content}
    (h : c.Draws (Token.significant text) ms) (hms : Located text ms) :
    c.Stands text := by
  cases c with
  | ordinary b => exact ⟨hms.sublist h.1, hms.sublist h.2⟩
  | descriptor d =>
    obtain ⟨hdependencies, hname | ⟨hname, word, hhead, hkind, hspan⟩⟩ := h
    · exact ⟨hms.sublist hdependencies, .inl (hms.sliced _ hname)⟩
    · exact ⟨hms.sublist hdependencies,
        .inr ⟨hname, word, hhead, projectKind?_eq_some.1 hkind, hspan⟩⟩

/-- Whatever reading a text yields points back into it. The content
mentions names as the text has them; each diagnostic is an error of the
parser at a token or at the end of the text, and none points in front of
one that was made before it. -/
theorem ofText_provenance {text : String}
    (h : text.utf8ByteSize < Span.limit) :
    (ofText text).1.Stands text
      ∧ (∀ e ∈ (ofText text).2, e.severity = .error ∧ e.origin = .parser
        ∧ ((∃ t ∈ Token.significant text, e.span = t.span)
          ∨ e.span = .empty text.utf8ByteSize))
      ∧ (ofText text).2.Pairwise fun d e => d.span.start ≤ e.span.start := by
  rw [ofText_of_lt h]
  obtain ⟨ms, hway, hdraws⟩ :=
    trail_ofTokens text.utf8ByteSize (Token.significant text)
  refine ⟨hdraws.stands hway.located, fun e he => ?_, ?_⟩
  · obtain ⟨issue, span, rfl, hspan⟩ := hway.reports he
    exact ⟨rfl, rfl, hspan⟩
  · exact (hway.pairwise (Token.pairwise_significant text)
      fun _ => Token.start_le_of_mem_significant).2

/-- A descriptor without a name, behind characters of two bytes, with
issues on the way and at its end. -/
theorem ofText_provenance_nameless :
    let text := "//é\ntool \x7b depends A depends"
    text.utf8ByteSize < Span.limit
      ∧ (ofText text).1.descriptor?.map (·.span) = some ⟨5, 9⟩
      ∧ (ofText text).2.map (·.span) = [⟨10, 11⟩, ⟨22, 29⟩, ⟨29, 29⟩]
      ∧ (ofText text).1.Stands text
      ∧ (∀ e ∈ (ofText text).2, e.severity = .error ∧ e.origin = .parser
        ∧ ((∃ t ∈ Token.significant text, e.span = t.span)
          ∨ e.span = .empty text.utf8ByteSize))
      ∧ (ofText text).2.Pairwise fun d e =>
        d.span.start ≤ e.span.start := by
  intro text
  have h : text.utf8ByteSize < Span.limit := by decide +kernel
  exact ⟨h, by decide +kernel, by decide +kernel, ofText_provenance h⟩

end Content

end Purview
