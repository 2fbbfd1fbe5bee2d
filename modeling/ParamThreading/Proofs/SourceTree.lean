import ParamThreading.Proofs.GoForms

/-!
# The syntax tree of a source

Its nodes lie in order inside each other, calls and declarations have their shapes, and declarations
of functions stand at the top only.

* `SourceTree`  what is known of the tree of a text;
* `Grammar.parse_sourceTree`  every tree that parsing gives is so.
-/

namespace ParamThreading

open Rule Grammar

theorem Node.isDeclaration_eq (n : Node) : n.isDeclaration = Grammar.isDeclaration n.kind := by
  obtain ⟨k, r, a, b, cs⟩ := n
  cases k <;> rfl

theorem Node.isFunction_eq (n : Node) : n.isFunction = Grammar.isFunction n.kind := by
  obtain ⟨k, r, a, b, cs⟩ := n
  cases k <;> rfl

theorem Node.isNamed_of_isDeclaration {d : Node} (h : d.isDeclaration = true) :
    d.kind.isNamed = true := by
  rw [isDeclaration_eq] at h
  revert h
  cases d.kind <;> decide

/-- What is known of the syntax tree of a text. -/
structure SourceTree (text : String) (root : Node) : Prop where
  neat : ∀ c ∈ root.children, c.All Node.Neat
  ordered : root.children.Pairwise Before
  filled : ∀ c ∈ root.children, c.start < c.stop
  within : ∀ c ∈ root.children, c.stop ≤ text.utf8ByteSize
  made : ∀ c ∈ root.children, c.All (Made rule fun _ => True)
  declaration : ∀ d ∈ root.children, d.isDeclaration = true → ∃ params, DeclarationShape d params ∧
    ∀ c ∈ d.children, c.All fun m => m.isDeclaration = false
  top : ∀ c ∈ root.children, ∀ m ∈ c.everything, m.isDeclaration = true → m = c

/-! ## declarations stand at the top -/

theorem isDeclaration_of_made {n : Node} (h : Made rule (· ≠ .item) n) :
    n.isDeclaration = false := by
  rw [Node.isDeclaration_eq]
  cases h with
  | leaf _ hk =>
    rcases hk with hk | ⟨s, -, hk⟩
    · rw [hk]; rfl
    · have hf := ((checked s).leaves _ hk).1
      revert hf
      cases n.kind <;> decide
  | @form s _ _ _ _ hs hform => exact (checked s).declarations hs _ hform

/-- What rules without items read holds no declaration. -/
theorem reads_inner {r : Production} {ts rest : List Token} {xs : List Node}
    (hread : Reads rule r none ts xs rest) (hr : Known rule isPlain (· ≠ .item) r) :
    ∀ x ∈ xs, x.All fun m => m.isDeclaration = false := by
  have hmade := (hread.made bare (fun s _ => (checked s).refs) hr nofun).1
  exact fun x hx m hm => isDeclaration_of_made (hmade x hx m hm)

theorem known_of_leaf {r : Production} {k : Kind} (s : Symbol) (hforms : r.forms = [])
    (hleaves : r.leaves = [k]) (hs : s ≠ .item) (hk : k ∈ (rule s).leaves)
    (hrefs : ∀ t ∈ r.refs, t ≠ .item) (hbare : r.holdsBare isPlain = true) :
    Known rule isPlain (· ≠ .item) r := by
  refine ⟨?_, ?_, hrefs, hbare⟩
  · rw [hforms]
    exact nofun
  · rw [hleaves]
    exact List.forall_mem_singleton.mpr ⟨s, hs, hk⟩

theorem known_function {k : Kind} {r : Production} (h : functionDeclarationRule = .node k r) :
    Known rule isPlain (· ≠ .item) r := by
  cases h
  exact known_of_leaf .varSpec rfl rfl nofun (by decide) (by decide) rfl

theorem known_method {k : Kind} {r : Production} (h : methodDeclarationRule = .node k r) :
    Known rule isPlain (· ≠ .item) r := by
  cases h
  exact known_of_leaf .fieldDeclaration rfl rfl nofun (by decide) (by decide) rfl

theorem known_package {k : Kind} {r : Production}
    (h : form .packageClause [key "package", .leaf .packageIdentifier (.word [])] = .node k r) :
    Known rule isPlain (· ≠ .item) r := by
  cases h
  exact known_of_leaf .importSpec rfl rfl nofun (by decide) nofun rfl

theorem reads_import {ts rest : List Token} {xs : List Node}
    (hread : Reads rule (seqs [key "import", alts [.ref .importSpec,
      form .importSpecList [mark "(", opt (lines (.ref .importSpec)), mark ")"]]]) none
      ts xs rest) :
    ∀ x ∈ xs, x.All fun m => m.isDeclaration = false := by
  obtain ⟨ys, zs, _, rfl, hkey, hspecs⟩ := reads_seq hread
  intro x hx
  rcases List.mem_append.mp hx with hx | hx
  · exact reads_inner hkey ⟨nofun, nofun, nofun, rfl⟩ x hx
  · rcases reads_alt hspecs with hspec | hspecs
    · exact reads_inner hspec ⟨nofun, nofun, by decide, rfl⟩ x hx
    · obtain ⟨ws, rfl, hlist⟩ := reads_node hspecs
      rw [List.mem_singleton.mp hx]
      exact Node.all_iff.mpr ⟨rfl, reads_inner hlist ⟨nofun, nofun, by decide, by decide⟩⟩

theorem reads_item_top {ts rest : List Token} {xs : List Node}
    (hread : Reads rule itemRule none ts xs rest) :
    ∀ x ∈ xs, ∀ m ∈ x.everything, m.isDeclaration = true → m = x := by
  -- all that stands in an item is read by rules without items
  have hinner : ∀ {k : Kind} {ys : List Node}, (∀ y ∈ ys, y.All fun m => m.isDeclaration = false) →
      ∀ m ∈ (Node.spanning k ys).everything, m.isDeclaration = true → m = Node.spanning k ys := by
    intro k ys hys m hm hdecl
    rcases Node.mem_everything.mp hm with rfl | ⟨c, hc, hm⟩
    · rfl
    · rw [hys c hc m hm] at hdecl
      cases hdecl
  intro x hx
  rcases reads_alt hread with hread | hread
  · obtain ⟨ys, rfl, hchildren⟩ := reads_node hread
    rw [List.mem_singleton.mp hx]
    exact hinner (reads_inner hchildren (known_package rfl))
  rcases reads_alt hread with hread | hread
  · obtain ⟨ys, rfl, hchildren⟩ := reads_node hread
    rw [List.mem_singleton.mp hx]
    exact hinner (reads_import hchildren)
  rcases reads_alt hread with hread | hread
  · obtain ⟨ys, rfl, hchildren⟩ := reads_node hread
    rw [List.mem_singleton.mp hx]
    exact hinner (reads_inner hchildren (known_function rfl))
  rcases reads_alt hread with hread | hread
  · obtain ⟨ys, rfl, hchildren⟩ := reads_node hread
    rw [List.mem_singleton.mp hx]
    exact hinner (reads_inner hchildren (known_method rfl))
  · intro m hm hdecl
    rw [reads_inner hread ⟨nofun, nofun, by decide, rfl⟩ x hx m hm] at hdecl
    cases hdecl

/-- An item that declares a function has the shape of a declaration, and none inside. -/
theorem reads_item {ts rest : List Token} {xs : List Node}
    (hread : Reads rule itemRule none ts xs rest) :
    ∀ x ∈ xs, x.isDeclaration = true → ∃ params, DeclarationShape x params ∧
      ∀ c ∈ x.children, c.All fun m => m.isDeclaration = false := by
  intro x hx hdecl
  rcases reads_alt hread with hread | hread
  · obtain ⟨ys, rfl, -⟩ := reads_node hread
    rw [List.mem_singleton.mp hx] at hdecl
    cases hdecl
  rcases reads_alt hread with hread | hread
  · obtain ⟨ys, rfl, -⟩ := reads_node hread
    rw [List.mem_singleton.mp hx] at hdecl
    cases hdecl
  rcases reads_alt hread with hread | hread
  · obtain ⟨n, params, rfl, hshape⟩ := reads_functionDeclaration hread
    obtain ⟨ys, hn, hchildren⟩ := reads_node hread
    cases List.mem_singleton.mp hx
    cases hn
    exact ⟨params, hshape, reads_inner hchildren (known_function rfl)⟩
  rcases reads_alt hread with hread | hread
  · obtain ⟨n, params, rfl, hshape⟩ := reads_methodDeclaration hread
    obtain ⟨ys, hn, hchildren⟩ := reads_node hread
    cases List.mem_singleton.mp hx
    cases hn
    exact ⟨params, hshape, reads_inner hchildren (known_method rfl)⟩
  · -- a statement
    have hinner := reads_inner hread ⟨nofun, nofun, by decide, rfl⟩ x hx
    rw [hinner.self] at hdecl
    cases hdecl

/-! ## parsing -/

theorem children_of_token {n : Node} {among : Symbol → Prop} (h : Made rule among n)
    (hk : n.kind = .token) : n.children = [] := by
  cases h with
  | leaf hnil _ => exact hnil
  | @form s _ _ _ _ _ hform =>
    have hnamed := (checked s).named _ hform
    rw [hk] at hnamed
    cases hnamed

theorem sourceFile_isLaidOut : sourceFile.isLaidOut putsHeld = true := by decide

theorem known_sourceFile : Known rule isPlain (fun _ => True) sourceFile :=
  ⟨nofun, nofun, fun _ _ => trivial, by decide⟩

theorem reads_sourceFile {ts rest : List Token} {xs : List Node}
    (hread : Reads rule sourceFile none ts xs rest) : ∀ x ∈ xs, x.kind = .token ∨
      ∃ ts' rest' ys, Reads rule itemRule none ts' ys rest' ∧ x ∈ ys := by
  intro x hx
  rcases hread.of_isFlat (by decide) x hx with hk | ⟨s, hs, hitem⟩
  · exact .inl hk
  · have hrefs : ∀ s ∈ sourceFile.refs, s = .item := by decide
    cases hrefs s hs
    exact .inr hitem

theorem Grammar.parse_sourceTree {text : String} {root : Node} (h : parse text = some root) :
    SourceTree text root := by
  unfold parse treeOf at h
  split at h
  case h_2 => cases h
  case h_1 items last hrun =>
    split at h
    case isFalse => cases h
    cases h
    have hread := reads_of_run hrun
    obtain ⟨lo, hfit⟩ := hread.laid laidOut sourceFile_isLaidOut
      (show Cursor.Valid ⟨0, _⟩ _ from Token.scan_chained text) nofun
    have hmade := (hread.made bare (fun _ _ _ _ => trivial) known_sourceFile nofun).1
    have hsolid := hread.kinds (fun s => (checked s).solid) (by decide) nofun
    have hend : Cursor.ceiling ⟨lo, [last]⟩ ≤ text.utf8ByteSize := by
      obtain ⟨-, -, h₁, -, h₂⟩ : Token.Chained text.utf8ByteSize lo [last] := hfit.valid
      exact hfit.valid.ceiling_le_entry.trans (h₁.trans h₂)
    refine ⟨hfit.neat, hfit.laid.ordered, fun c hc => ?_, fun c hc => ?_, hmade,
      fun d hd hdecl => ?_, fun c hc m hm hdecl => ?_⟩
    · exact (hfit.neat c hc).self.filled (hsolid c hc)
    · exact (hfit.laid.within c hc).2.2.2.2.1.trans hend
    · rcases reads_sourceFile hread d hd with hk | ⟨_, _, _, hitem, hd⟩
      · rw [Node.isDeclaration_eq, hk] at hdecl
        cases hdecl
      · exact reads_item hitem d hd hdecl
    · rcases reads_sourceFile hread c hc with hk | ⟨_, _, _, hitem, hc⟩
      · rcases Node.mem_everything.mp hm with rfl | ⟨x, hx, -⟩
        · rfl
        · rw [children_of_token (hmade c hc).self hk] at hx
          cases hx
      · exact reads_item_top hitem c hc m hm hdecl

end ParamThreading
