/-
What reading leaves to the later steps. A reader reports issues on its
way and nothing else (`issues_ofText`), so the diagnostics of a text that has
just been read are the parser's own, and a document that goes back to
where it was read keeps them and loses the others. And a reader finds
no targets (`unlink_ofText`): forgetting the targets of a document
brings back what its text says.
-/
import Purview.Proofs.Trails

namespace Purview

/-- A diagnostic that a reader has reported. -/
def Diagnostic.IsIssue (x : Diagnostic) : Prop :=
  ∃ (issue : Issue) (span : Span), x = issue.diagnose span

namespace Reader

variable (stop : Nat)

-- ============================================================= targets

/-- A reference that is read has no target. -/
theorem target_readItem {t : Token} {ts : List Token} {r : Reference}
    (h : (readItem stop t ts).value = some (.reference r)) :
    r.target = none := by
  unfold readItem at h
  split at h
  · obtain ⟨d, -, hd⟩ := Option.map_eq_some_iff.1 h
    cases hd
  · obtain ⟨name, -, hr⟩ := Option.map_eq_some_iff.1 h
    cases hr
    rfl
  · cases h

/-- No reference that is read has one. -/
theorem target_readItems (ts : List Token) :
    ∀ r, .reference r ∈ (readItems stop ts).1 → r.target = none := by
  fun_induction readItems stop ts with
  | case1 => simp
  | case2 t ts item more ih =>
    intro r hr
    rcases List.mem_append.1 hr with hr | hr
    · exact target_readItem stop (Option.mem_toList.1 hr)
    · exact ih r hr

/-- Forgetting targets that are not there changes nothing. -/
theorem unlink_bodyOf {items : List Item}
    (h : ∀ r, .reference r ∈ items → r.target = none) :
    (bodyOf items).unlink = bodyOf items := by
  have hsame : ∀ r ∈ (bodyOf items).references,
      { r with target := none } = r := by
    intro r hr
    obtain ⟨item, hitem, hr⟩ := List.mem_filterMap.1 hr
    cases item with
    | definition d => cases hr
    | reference r' =>
      cases hr
      have htarget := h r hitem
      obtain ⟨name, span, target⟩ := r
      cases htarget
      rfl
  have hmap : (bodyOf items).references.map
      (fun r => { r with target := none }) = (bodyOf items).references :=
    (List.map_congr_left hsame).trans (List.map_id _)
  unfold Body.unlink
  rw [hmap]

end Reader

namespace Content

open Reader

/-- The diagnostics of a text are the issues that its reader met. -/
theorem issues_ofText (text : String) :
    ∀ x ∈ (ofText text).2, x.IsIssue := by
  intro x hx
  unfold ofText at hx
  split at hx
  · obtain ⟨ms, hway, -⟩ :=
      trail_ofTokens text.utf8ByteSize (Token.significant text)
    obtain ⟨issue, span, heq, -⟩ := hway.reports hx
    exact ⟨issue, span, heq⟩
  · exact ⟨_, _, List.mem_singleton.1 hx⟩

/-- Tokens by themselves lead nowhere. -/
theorem unlink_ofTokens (stop : Nat) (ts : List Token) :
    (ofTokens stop ts).1.unlink = (ofTokens stop ts).1 := by
  unfold ofTokens
  split
  · rfl
  · split
    · rfl
    · exact congrArg Content.ordinary
        (unlink_bodyOf (target_readItems _ _))

/-- A text by itself leads nowhere. -/
theorem unlink_ofText (text : String) :
    (ofText text).1.unlink = (ofText text).1 := by
  unfold ofText
  split
  · exact unlink_ofTokens _ _
  · rfl

end Content

end Purview
