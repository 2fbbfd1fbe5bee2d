import ParamThreading.Proofs.SourceTree

/-!
# Names in Go

Identifiers, the fields of selectors and the names of declarations are leaves, so that no call and
no function literal stands in them.

* `Rule.namesLeaves`  a role that only leaves have;
* `Grammar.identifier_leaf`, `Grammar.selector_leaf`, `Grammar.name_leaf`  what is a leaf;
* `Grammar.inert_of_leaf`  leaves are neither calls nor function literals.
-/

namespace ParamThreading

namespace Rule

variable {σ : Type} {grammar : σ → Rule σ}

def isLeaf : Rule σ → Bool
  | .leaf .. => true
  | _ => false

/-- What the rule yields in a role is a leaf, given that it is so for symbols and the held node. -/
def namesLeaves (role : Role) : Rule σ → Bool
  | .label role' r => isLeaf r || role' != role && namesLeaves role r
  | .seq a b | .alt a b | .hold a b => namesLeaves role a && namesLeaves role b
  | .many r | .wide _ r | .extend r => namesLeaves role r
  | _ => true

theorem Reads.children_of_isLeaf {r : Rule σ} {h : Option Node} {ts rest : List Token}
    {xs : List Node} (hread : Reads grammar r h ts xs rest) (hr : r.isLeaf = true) :
    ∀ x ∈ xs, x.children = [] := by
  cases hread with
  | leaf =>
    intro x hx
    rw [List.mem_singleton.mp hx]
    rfl
  | _ => cases hr

theorem checks_namesLeaves {role : Role} (hg : ∀ s, (grammar s).namesLeaves role = true) :
    Checks grammar (namesLeaves role) fun x => x.role = some role → x.children = [] where
  symbols := hg
  seq _ _ := rfl
  alt _ _ := rfl
  hold _ _ := rfl
  many _ := rfl
  wide _ _ := rfl
  extend _ := rfl
  token _ _ _ _ := nofun
  leaf _ _ _ _ _ := nofun
  lineEnd _ _ _ := nofun
  node _ _ _ _ := nofun
  label := by
    intro role' r h ts xs rest hr hread hxs x hx
    by_cases hnone : x.role.isNone = true
    · rw [if_pos hnone, Node.children_withRole, Node.role_withRole]
      intro hrole
      rcases Bool.or_eq_true_iff.mp hr with hleaf | hother
      · exact hread.children_of_isLeaf hleaf x hx
      · have hne := (Bool.and_eq_true_iff.mp hother).1
        exact absurd (Option.some.inj hrole) (bne_iff_ne.mp hne)
    · rw [if_neg hnone]
      rcases Bool.or_eq_true_iff.mp hr with hleaf | hother
      · exact fun _ => hread.children_of_isLeaf hleaf x hx
      · exact hxs (Bool.and_eq_true_iff.mp hother).2 x hx

end Rule

namespace Grammar

open Rule

def isIdentifier : Kind → Bool
  | .identifier => true
  | _ => false

def isSelector : Kind → Bool
  | .selectorExpression => true
  | _ => false

def makesSelector : Symbol → Bool
  | .suffix _ => true
  | _ => false

def namesPass (s : Symbol) : Bool :=
  (rule s).namesLeaves .name &&
    (rule s).forms.all (fun p => !isIdentifier p.1 && (makesSelector s || !isSelector p.1) &&
      (!isDeclaration p.1 || p.2.namesLeaves .name)) &&
    (rule s).leaves.all (!isSelector ·)

theorem namesPass_all (s : Symbol) : namesPass s = true := by
  refine forall_symbol (by decide +kernel) (fun f level => ?_) s
  obtain ⟨line, block, send, guard⟩ := f
  cases line <;> rfl

structure NamesChecked (s : Symbol) : Prop where
  namesLeaves : (rule s).namesLeaves .name = true
  identifiers : ∀ p ∈ (rule s).forms, isIdentifier p.1 = false
  selectors : makesSelector s = false → ∀ p ∈ (rule s).forms, isSelector p.1 = false
  declarations : ∀ p ∈ (rule s).forms, isDeclaration p.1 = true → p.2.namesLeaves .name = true
  leaves : ∀ k ∈ (rule s).leaves, isSelector k = false

theorem namesChecked (s : Symbol) : NamesChecked s := by
  have h := namesPass_all s
  simp only [namesPass, Bool.and_eq_true, Bool.or_eq_true, Bool.not_eq_true', List.all_eq_true] at h
  obtain ⟨⟨h₁, h₂⟩, h₃⟩ := h
  refine ⟨h₁, fun p hp => (h₂ p hp).1.1, fun e p hp => ?_, fun p hp e => ?_, h₃⟩
  · exact (h₂ p hp).1.2.resolve_left (by rw [e]; decide)
  · exact (h₂ p hp).2.resolve_left (by rw [e]; decide)

variable {among : Symbol → Prop} {n c : Node}

theorem identifier_leaf (hn : Made rule among n) (hk : n.kind = .identifier) : n.children = [] := by
  cases hn with
  | leaf h _ => exact h
  | @form s _ _ _ _ _ hform _ _ =>
    have hid := (namesChecked s).identifiers _ hform
    rw [hk] at hid
    cases hid

theorem name_leaf (hn : Made rule among n) (hk : n.isDeclaration = true) (hc : c ∈ n.children)
    (hrole : c.role = some .name) : c.children = [] := by
  cases hn with
  | leaf h _ => rw [h] at hc; cases hc
  | @form s _ h _ _ _ hform hh hread =>
    have hnames := (namesChecked s).declarations _ hform (Node.isDeclaration_eq n ▸ hk)
    refine hread.checked (checks_namesLeaves fun s => (namesChecked s).namesLeaves) hnames
      (fun x hx hrole => ?_) c hc hrole
    rw [(hh x hx).1] at hrole
    cases hrole

def selectorForms : Symbol → List Production
  | .suffix f =>
    [seqs [.label .operand .held, kept f.line dot,
      .label .field (.leaf .fieldIdentifier (.word []))]]
  | _ => []

theorem selectorForms_eq (s : Symbol) (hs : makesSelector s = true) :
    ((rule s).forms.filter (isSelector ·.1)).map (·.2) = selectorForms s := by
  cases s with
  | suffix f =>
    obtain ⟨line, block, send, guard⟩ := f
    cases line <;> cases guard <;> rfl
  | _ => cases hs

/-- What a selector names is a leaf: of its children only the operand has some of its own. -/
theorem selector_leaf (hn : Made rule among n) (hk : n.kind = .selectorExpression)
    (hc : c ∈ n.children) (hrole : c.role ≠ some .operand) : c.children = [] := by
  cases hn with
  | leaf h _ => rw [h] at hc; cases hc
  | @form s _ h _ _ _ hform hh hread =>
    have hsel := mem_of_mem_forms (fun s => (namesChecked s).selectors) selectorForms_eq hform
      (by rw [hk]; rfl)
    cases s with
    | suffix f =>
      rw [List.mem_singleton.mp hsel] at hread
      obtain ⟨_, _, _, hxs, hoperand, h₁⟩ := reads_seq hread
      obtain ⟨_, _, _, rfl, hdot, hfield⟩ := reads_seq h₁
      obtain ⟨x, hx, rfl⟩ := reads_label_held hoperand fun x hx => (hh x hx).1
      rw [hxs] at hc
      rcases List.mem_append.mp hc with hc | hc
      · rw [List.mem_singleton.mp hc, Node.role_withRole] at hrole
        exact absurd rfl hrole
      rcases List.mem_append.mp hc with hc | hc
      · cases reads_kept hdot with
        | token => rw [List.mem_singleton.mp hc]; rfl
      · cases hfield with
        | label hleaf =>
          cases hleaf with
          | leaf => rw [List.mem_singleton.mp hc]; rfl
    | _ => cases hsel

/-- Calls and function literals have children. -/
theorem inert_of_leaf (hn : Made rule among n) (hc : n.children = []) :
    n.kind ≠ .callExpression ∧ n.kind ≠ .funcLiteral := by
  refine ⟨fun hk => ?_, fun hk => ?_⟩
  · obtain ⟨f, args, hshape⟩ := callShape hn hk
    obtain ⟨between, hchildren, -⟩ := hshape.children
    rw [hc] at hchildren
    cases hchildren
  · obtain ⟨⟨t, cs, hchildren, -⟩, -⟩ := opened_begins hn (by rw [hk]; rfl)
    rw [hc] at hchildren
    cases hchildren

end Grammar

end ParamThreading
