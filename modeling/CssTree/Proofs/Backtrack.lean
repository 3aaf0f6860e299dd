import CssTree.Proofs.Fragment
import CssTree.Proofs.Twin.Remark
import CssTree.Proofs.Twin.Rule
import CssTree.Tree.View

namespace CssTree.Grammar

/-- What is tried and undone if it fails. -/
inductive Speculation
  /-- An at-rule, a rule, or a rule of keyframes; `depth` bounds how deep rules nest in it. -/
  | rule (keyframes : Bool) (depth : Nat)
  | declaration
  | disabledDeclaration

namespace Speculation

def read : Speculation → Attempt Node
  | rule keyframes depth => do
    if (← peekKind) = .atKeyword then
      atRule fun keyframes => blockOf (ruleWithin keyframes true depth)
    else if keyframes then keyframeRule
    else qualifiedRule
  | declaration => Grammar.declaration
  | disabledDeclaration => Grammar.disabledDeclaration

/-- Where something is tried. -/
def Tried : Speculation → State → Prop
  | disabledDeclaration, s => s.upcoming.head.kind = .openComment
  | _, _ => True

end Speculation

/-- A state is as an earlier one, up to comments that are folded now. -/
structure Restored (s back : State) : Prop where
  taken : back.taken = s.taken
  place : back.place = s.place
  guard : back.guard = s.guard
  limit : back.limit = s.limit
  created : back.created = s.created
  nodes : back.arena.parents = s.arena.parents
  text : back.upcoming.render = s.upcoming.render
  upcoming : s.upcoming.Refolds back.upcoming
  exact : (∀ t ∈ s.upcoming.tokens, t.kind ≠ .openComment) → back.upcoming = s.upcoming

variable {s : State}

theorem Lost.restored {r : State} (h : Lost s r) : Restored s (s.rewind r) := by
  obtain ⟨es, htook⟩ := h
  have hback : Took s [] (s.rewind r) := htook.rewind
  have hupcoming : s.upcoming.Refolds (s.rewind r).upcoming := hback.folded
  have hnodes : (s.rewind r).arena.parents = s.arena.parents := by
    have hgrown := hback.grown
    rw [Element.entriesOf_nil] at hgrown
    exact hgrown.parents_eq
  exact ⟨rfl, rfl, rfl, rfl, rfl, hnodes, hupcoming.render_eq, hupcoming, hupcoming.eq_of_kinds⟩

/-- An attempt that fails leaves something that can be undone. -/
theorem Speculation.lost (p : Speculation) (hs : s.Sound) (htried : p.Tried s)
    (hfail : (p.read.run.run s).1 = none) : Lost s (p.read.run.run s).2 := by
  have hstarts := Stream.starts_nil s.upcoming
  cases p with
  | rule keyframes depth => exact undoes_rule depth keyframes s hs hstarts hfail
  | declaration => exact undoes_declaration s hs hstarts hfail
  | disabledDeclaration => exact undoes_disabledDeclaration hs htried hfail

theorem attempt_failed {p : Attempt Node} (hfail : ((attempt p).run s).1 = none) :
    (p.run.run s).1 = none ∧ ((attempt p).run s).2 = s.rewind (p.run.run s).2 := by
  rw [run_attempt] at hfail ⊢
  cases hresult : (p.run.run s).1 with
  | none => simp
  | some n => simp [hresult] at hfail

/-- Whatever is tried and fails, in whatever state: the tokens taken, the place, the depth of
nesting and the nodes in use are those from before, and the tokens to come are, up to comments that
are folded now. Where a comment of a block holds no declaration and is not read past its end, which
it never is if it opens no bracket, not even a comment is folded, and what the comment says makes no
difference to the items of the block. -/
theorem backtracking_restores (hs : s.Sound) :
    (∀ p : Speculation, p.Tried s → ((attempt p.read).run s).1 = none →
      Restored s ((attempt p.read).run s).2) ∧
    (s.AtItem → s.AtRemark →
      ((attempt disabledDeclaration).run s).2.upcoming = s.upcoming ∧
      ∀ s' : State, s'.AtItem → s'.AtRemark → s.Resembles s' →
        ((many declarationItem).run s).1.map Node.bare =
          ((many declarationItem).run s').1.map Node.bare) ∧
    (s.AtItem → s.upcoming.head.kind = .openComment →
      ((attempt disabledDeclaration).run s).1 = none →
      (∀ t ∈ (commentRun s.upcoming.tokens).1, t.kind.closing? = none) → s.AtRemark) := by
  refine ⟨fun p htried hfail => ?_, fun hitem hremark => ?_, fun hitem hopen hfail hplain => ?_⟩
  · obtain ⟨hnone, hback⟩ := attempt_failed hfail
    rw [hback]
    exact (p.lost hs htried hnone).restored
  · have hback : ((attempt disabledDeclaration).run s).2 =
        s.rewind (disabledDeclaration.run.run s).2 := by
      rw [run_attempt, hremark.fails]
      rfl
    rw [hback]
    exact ⟨hremark.upcoming_rewind hitem, fun s' hitem' hremark' hsame =>
      remark_indifferent hitem hitem' hremark hremark' hsame⟩
  · exact .of_plain hitem hopen hplain (attempt_failed hfail).1

theorem atItem_start (config : Config) (t : Text) : (State.start config .empty t).AtItem := by
  have hpoised : Poised Pairing.hushed.folds true (Stream.ofText config t).length []
      (State.start config .empty t) := poised_start Arena.fresh_empty (by simp) t
  exact .of_poised hpoised (Or.inl (by simp [State.behind, State.start]))

/-- The start of a text with structural comments. -/
def State.structural (t : Text) : State := .start ⟨128, true, false⟩ .empty t

theorem resembles_structural {t t' : Text}
    (h : (Stream.ofText ⟨128, true, false⟩ t).foldFront.Hushes
      (Stream.ofText ⟨128, true, false⟩ t').foldFront) :
    (State.structural t).Resembles (State.structural t') := ⟨rfl, h, rfl, rfl⟩

theorem backtracking_restores_note :
    let s := State.structural "/* note */ x: y; /* c: d */".toList
    let s' := State.structural "/*      */ x: y; /* c: d */".toList
    (s.Sound ∧ s.AtItem ∧ s.AtRemark ∧ s'.AtItem ∧ s'.AtRemark ∧ s.Resembles s') ∧
      Restored s ((attempt disabledDeclaration).run s).2 ∧
      ((attempt disabledDeclaration).run s).2.upcoming = s.upcoming ∧
      ((many declarationItem).run s).1.map Node.bare =
        ((many declarationItem).run s').1.map Node.bare := by
  intro s s'
  have hitem : s.AtItem := atItem_start _ _
  have hitem' : s'.AtItem := atItem_start _ _
  have hremark : s.AtRemark := ⟨by decide +kernel, by decide +kernel, by decide +kernel⟩
  have hremark' : s'.AtRemark := ⟨by decide +kernel, by decide +kernel, by decide +kernel⟩
  have hsame : s.Resembles s' := resembles_structural (by decide +kernel)
  have hrestores := backtracking_restores hitem.sound
  have hfail : ((attempt disabledDeclaration).run s).1 = none := by decide +kernel
  refine ⟨⟨hitem.sound, hitem, hremark, hitem', hremark', hsame⟩,
    hrestores.1 .disabledDeclaration hremark.opens hfail, ?_⟩
  obtain ⟨hupcoming, hitems⟩ := hrestores.2.1 hitem hremark
  exact ⟨hupcoming, hitems s' hitem' hremark' hsame⟩

/-- A comment with an open bracket is read past its end. The comment behind it is folded then, and
no declaration is found in it, as it would be if the first comment were blank. -/
theorem comment_hides_declaration :
    let s := State.structural "/* a: (b */ x: y; /* c: d */".toList
    let disabled := fun t : Text =>
      (Tree.parse .styleSheet ⟨128, true, false⟩ t).root.descendants.countP fun n =>
        n.declaration?.any (·.isDisabled)
    (((attempt disabledDeclaration).run s).1.isNone ∧
      ((attempt disabledDeclaration).run s).2.upcoming.tokens.map (·.kind) ≠
        s.upcoming.tokens.map (·.kind)) ∧
      disabled "a{/* a: (b */ x: y; /* c: d */}".toList = 0 ∧
      disabled "a{/*       */ x: y; /* c: d */}".toList = 1 := by
  decide +kernel

end CssTree.Grammar
