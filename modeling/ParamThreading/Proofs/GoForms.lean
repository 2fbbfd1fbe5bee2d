import ParamThreading.Proofs.GoRules

/-!
# What calls and declarations look like

* `CallShape`, `DeclarationShape`  the children of calls and of declarations;
* `Grammar.callShape`  every call of a tree has this shape;
* `Grammar.reads_functionDeclaration`, `Grammar.reads_methodDeclaration`  so do declarations;
* `Grammar.opened_begins`  functions and argument lists begin with a token.
-/

namespace ParamThreading

namespace Grammar

open Rule

/-! ## calls -/

/-- The forms of calls: behind an operand, perhaps with type arguments, and those of `new` and
`make`, whose first argument is a type. -/
def callForms : Symbol → List Production
  | .suffix f => [
    seqs [.label .function .held, kept f.line .empty, .label .arguments (.ref .arguments)],
    seqs [.label .function .held, kept f.line .empty,
      .notAhead (.seq (mark "[") (alts (["nil", "true", "false", "iota", "new", "make"].map key))),
      .label .typeArguments (.ref .typeArguments), .label .arguments (.ref .arguments)]]
  | .operand f => ["new", "make"].map fun w =>
    seqs [.label .function (.leaf .identifier (.keyword w)), kept f.line (.ahead (mark "(")),
      .label .arguments (.ref .typedArguments)]
  | _ => []

/-- The forms of certain kinds in the rules of Go, if they are known for the symbols that have some.
-/
theorem mem_of_mem_forms {among : Kind → Bool} {makes : Symbol → Bool}
    {forms : Symbol → List Production}
    (hnone : ∀ s, makes s = false → ∀ p ∈ (rule s).forms, among p.1 = false)
    (hforms : ∀ s, makes s = true → ((rule s).forms.filter (among ·.1)).map (·.2) = forms s)
    {s : Symbol} {k : Kind} {r : Production} (h : (k, r) ∈ (rule s).forms) (hk : among k = true) :
    r ∈ forms s := by
  cases hs : makes s with
  | false =>
    rw [hnone s hs _ h] at hk
    cases hk
  | true =>
    rw [← hforms s hs]
    exact List.mem_map.mpr ⟨(k, r), List.mem_filter.mpr ⟨h, hk⟩, rfl⟩

theorem callForms_eq (s : Symbol) (hs : makesCall s = true) :
    ((rule s).forms.filter (isCall ·.1)).map (·.2) = callForms s := by
  cases s with
  | suffix f =>
    obtain ⟨line, block, send, guard⟩ := f
    cases line <;> cases guard <;> rfl
  | operand f =>
    obtain ⟨line, block, send, guard⟩ := f
    cases line <;> rfl
  | _ => cases hs

theorem mem_callForms {s : Symbol} {k : Kind} {r : Production} (h : (k, r) ∈ (rule s).forms)
    (hk : isCall k = true) : r ∈ callForms s :=
  mem_of_mem_forms (fun s => (checked s).calls) callForms_eq h hk

end Grammar

/-- The children of a call: what is called, perhaps type arguments, and the arguments. -/
structure CallShape (n f args : Node) : Prop where
  solid : f.kind.isSolid = true
  children : ∃ between, n.children = f :: (between ++ [args]) ∧
    ∀ x ∈ between, x.role = some .typeArguments
  function : f.role = some .function
  arguments : args.role = some .arguments
  list : args.kind = .argumentList

namespace CallShape

variable {n f args : Node}

theorem child_arguments (h : CallShape n f args) : n.child? .arguments = some args := by
  obtain ⟨between, hc, hb⟩ := h.children
  have hnone : between.find? (·.role == some .arguments) = none := by
    rw [List.find?_eq_none]
    intro x hx
    rw [hb x hx]
    decide
  simp [Node.child?, hc, h.function, h.arguments, hnone]

end CallShape

/-- The children of a declaration of a function or method: it has a name, and a parameter list. -/
structure DeclarationShape (n params : Node) : Prop where
  isDeclaration : n.isDeclaration = true
  name : ∃ name, n.child? .name = some name
  parameters : n.child? .parameters = some params
  list : params.kind = .parameterList

namespace Grammar

open Rule

variable {h : Option Node} {ts rest : List Token} {xs : List Node} {among : Symbol → Prop}

theorem reads_kept {line : Bool} {r : Production} (hread : Reads rule (kept line r) h ts xs rest) :
    Reads rule r h ts xs rest := by
  cases line with
  | false => exact hread
  | true =>
    obtain ⟨ys, zs, mid, rfl, hline, hr⟩ := reads_seq hread
    obtain ⟨rfl, rfl⟩ := hline.silent rfl
    exact hr

theorem reads_callForm {s : Symbol} {r : Production} (hr : r ∈ callForms s)
    (hh : ∀ x, h = some x → x.role = none ∧ x.kind.isSolid = true)
    (hread : Reads rule r h ts xs rest) :
    ∃ f between args, xs = f :: (between ++ [args]) ∧ f.kind.isSolid = true ∧
      f.role = some .function ∧ args.role = some .arguments ∧ args.kind = .argumentList ∧
      ∀ x ∈ between, x.role = some .typeArguments := by
  cases s with
  | suffix f =>
    rcases List.mem_pair.mp hr with rfl | rfl
    · obtain ⟨_, _, _, rfl, hf, h₁⟩ := reads_seq hread
      obtain ⟨_, _, _, rfl, hkept, h₂⟩ := reads_seq h₁
      obtain ⟨rfl, rfl⟩ := (reads_kept hkept).silent rfl
      obtain ⟨x, hx, rfl⟩ := reads_label_held hf fun x hx => (hh x hx).1
      obtain ⟨args, rfl, hrole, hkind⟩ := reads_label_ref rfl h₂
      exact ⟨_, [], args, rfl, by rw [Node.kind_withRole]; exact (hh x hx).2, Node.role_withRole ..,
        hrole, hkind, nofun⟩
    · obtain ⟨_, _, _, rfl, hf, h₁⟩ := reads_seq hread
      obtain ⟨_, _, _, rfl, hkept, h₂⟩ := reads_seq h₁
      obtain ⟨_, _, _, rfl, hnot, h₃⟩ := reads_seq h₂
      obtain ⟨_, _, _, rfl, htypes, h₄⟩ := reads_seq h₃
      obtain ⟨rfl, rfl⟩ := (reads_kept hkept).silent rfl
      obtain ⟨rfl, rfl⟩ := hnot.silent rfl
      obtain ⟨x, hx, rfl⟩ := reads_label_held hf fun x hx => (hh x hx).1
      obtain ⟨types, rfl, hrole', -⟩ := reads_label_ref rfl htypes
      obtain ⟨args, rfl, hrole, hkind⟩ := reads_label_ref rfl h₄
      refine ⟨_, [types], args, rfl, by rw [Node.kind_withRole]; exact (hh x hx).2,
        Node.role_withRole .., hrole, hkind, fun y hy => ?_⟩
      rw [List.mem_singleton.mp hy]
      exact hrole'
  | operand f =>
    obtain ⟨w, -, rfl⟩ := List.mem_map.mp hr
    obtain ⟨_, _, _, rfl, hf, h₁⟩ := reads_seq hread
    obtain ⟨_, _, _, rfl, hkept, h₂⟩ := reads_seq h₁
    obtain ⟨rfl, rfl⟩ := (reads_kept hkept).silent rfl
    obtain ⟨name, rfl, hname, hleaf⟩ := reads_label_leaf hf
    obtain ⟨args, rfl, hrole, hkind⟩ := reads_label_ref rfl h₂
    exact ⟨name, [], args, rfl, by rw [hleaf]; rfl, hname, hrole, hkind, nofun⟩
  | _ => cases hr

theorem callShape {n : Node} (hn : Made rule among n) (hk : n.kind = .callExpression) :
    ∃ f args, CallShape n f args := by
  cases hn with
  | leaf _ hkind =>
    rcases hkind with hkind | ⟨s, -, hkind⟩
    · rw [hk] at hkind; cases hkind
    · rw [hk] at hkind
      cases ((checked s).leaves _ hkind).2
  | form _ hform hh hread =>
    rw [hk] at hform
    obtain ⟨f, between, args, hc, hsolid, hf, hargs, hlist, hb⟩ :=
      reads_callForm (mem_callForms hform rfl) hh hread
    exact ⟨f, args, hsolid, ⟨between, hc, hb⟩, hf, hargs, hlist⟩

/-! ## functions -/

theorem exists_token {r : Production} (hr : beginsWithToken r = true) :
    ∃ t r', r = .seq (.token t) r' := by
  unfold beginsWithToken at hr
  split at hr
  · exact ⟨_, _, rfl⟩
  · cases hr

/-- A function begins with a keyword and an argument list with a parenthesis, and their children
cover some text. -/
theorem opened_begins {n : Node} (hn : Made rule among n) (hk : isOpened n.kind = true) :
    (∃ t cs, n.children = t :: cs ∧ t.kind = .token) ∧ ∀ c ∈ n.children, c.kind.isSolid = true := by
  cases hn with
  | leaf _ hkind =>
    rcases hkind with hkind | ⟨s, -, hkind⟩
    · rw [hkind] at hk; cases hk
    · rw [((checked s).leaves _ hkind).1] at hk; cases hk
  | @form s r _ _ _ _ hform hh hread =>
    obtain ⟨hbegins, hyields⟩ := (checked s).opened _ hform hk
    refine ⟨?_, hread.kinds (fun s => (checked s).solid) hyields fun x hx => (hh x hx).2⟩
    obtain ⟨t, r', rfl⟩ := exists_token hbegins
    obtain ⟨_, zs, _, hc, htoken, -⟩ := reads_seq hread
    obtain ⟨t, rfl, -, htoken⟩ := reads_token htoken
    exact ⟨t, zs, hc, htoken⟩

theorem reads_head {a b body : Production} {ys : List Node}
    (hread : Reads rule (seqs [key "func", a, b, .label .parameters (.ref .parameters), body])
      h ts ys rest) : ∃ t as bs params zs, ys = t :: (as ++ (bs ++ params :: zs)) ∧ t.role = none ∧
      (∃ ts mid, Reads rule a h ts as mid) ∧ (∃ ts mid, Reads rule b h ts bs mid) ∧
      params.role = some .parameters ∧ params.kind = .parameterList := by
  obtain ⟨_, _, _, rfl, hkey, h₁⟩ := reads_seq hread
  obtain ⟨_, _, _, rfl, ha, h₂⟩ := reads_seq h₁
  obtain ⟨_, _, _, rfl, hb, h₃⟩ := reads_seq h₂
  obtain ⟨_, _, _, rfl, hparams, -⟩ := reads_seq h₃
  obtain ⟨t, rfl, ht, -⟩ := reads_token hkey
  obtain ⟨params, rfl, hrole, hkind⟩ := reads_label_ref rfl hparams
  exact ⟨t, _, _, params, _, rfl, ht, ⟨_, _, ha⟩, ⟨_, _, hb⟩, hrole, hkind⟩

theorem reads_functionDeclaration (hread : Reads rule functionDeclarationRule h ts xs rest) :
    ∃ n params, xs = [n] ∧ DeclarationShape n params := by
  obtain ⟨ys, rfl, h₀⟩ := reads_node hread
  obtain ⟨t, _, types, params, _, rfl, ht, ⟨_, _, hname⟩, ⟨_, _, htypes⟩, hrole, hkind⟩ :=
    reads_head h₀
  obtain ⟨name, rfl, hname, -⟩ := reads_label_leaf hname
  refine ⟨_, params, rfl, rfl, ⟨name, ?_⟩, ?_, hkind⟩
  · simp [Node.child?, ht, hname]
  · rcases reads_alt htypes with htypes | hempty
    · obtain ⟨types, rfl, htypes, -⟩ := reads_label_ref rfl htypes
      simp [Node.child?, ht, hname, htypes, hrole]
    · obtain ⟨rfl, -⟩ := hempty.silent rfl
      simp [Node.child?, ht, hname, hrole]

theorem reads_methodDeclaration (hread : Reads rule methodDeclarationRule h ts xs rest) :
    ∃ n params, xs = [n] ∧ DeclarationShape n params := by
  obtain ⟨ys, rfl, h₀⟩ := reads_node hread
  obtain ⟨t, _, _, params, _, rfl, ht, ⟨_, _, hreceiver⟩, ⟨_, _, hname⟩, hrole, hkind⟩ :=
    reads_head h₀
  obtain ⟨receiver, rfl, hreceiver, -⟩ := reads_label_ref rfl hreceiver
  obtain ⟨name, rfl, hname, -⟩ := reads_label_leaf hname
  refine ⟨_, params, rfl, rfl, ⟨name, ?_⟩, ?_, hkind⟩
  · simp [Node.child?, ht, hreceiver, hname]
  · simp [Node.child?, ht, hreceiver, hname, hrole]

end Grammar

end ParamThreading
