import ParamThreading.Proofs.CallSites
import ParamThreading.Proofs.GoNames
import ParamThreading.Proofs.Resolution

/-!
# Where the edges of a call graph come from

The traversal of an item leaves out names, which hold neither calls nor literals; so its edges are
those of the calls and of the literals, one place after the other.

* `Node.ways`  the ways up from all named nodes of a tree;
* `Names.edgesAt`  the edges of the node at the lower end of a way;
* `Names.filter_edgesFrom`  the traversal of a tree, by its ways;
* `CallGraph.filter_edges`  the edges of a graph, by the ways of all items.
-/

namespace ParamThreading

open Rule Grammar

/-! ## all ways up -/

namespace Node

mutual

/-- The ways up from the named nodes of a tree, in the order of the text. They go on with the nodes
above the tree. -/
def ways (above : List Node) : Node → List (List Node)
  | .mk k r a b cs => (.mk k r a b cs :: above) :: waysIn (.mk k r a b cs :: above) cs
termination_by structural n => n

def waysIn (above : List Node) : List Node → List (List Node)
  | [] => []
  | c :: cs => (if c.kind.isNamed then ways above c else []) ++ waysIn above cs
termination_by structural cs => cs

end

theorem waysIn_eq (above cs : List Node) :
    waysIn above cs = (cs.filter (·.kind.isNamed)).flatMap (ways above) := by
  induction cs with
  | nil => rfl
  | cons c cs ih =>
    rw [waysIn, ih]
    by_cases h : c.kind.isNamed
    · simp [h]
    · simp [h]

theorem ways_eq (above : List Node) (n : Node) :
    n.ways above = (n :: above) :: n.codeChildren.flatMap (ways (n :: above)) := by
  cases n with
  | mk k r a b cs => rw [ways, waysIn_eq]; rfl

theorem ways_of_leaf {n : Node} (h : n.children = []) (above : List Node) :
    n.ways above = [n :: above] := by
  rw [ways_eq, codeChildren, h]
  rfl

theorem Path.cases_child {n : Node} {ps : List Node} (h : Path n ps) :
    ps = [n] ∨ ∃ c ∈ n.codeChildren, ∃ qs, Path c qs ∧ ps = qs ++ [n] := by
  induction h with
  | root => exact .inl rfl
  | @child c p ps hp hc hn ih =>
    right
    rcases ih with heq | ⟨d, hd, qs, hqs, heq⟩
    · cases heq
      exact ⟨c, List.mem_filter.mpr ⟨hc, hn⟩, [c], .root, rfl⟩
    · cases qs with
      | nil => cases hqs
      | cons q qs =>
        cases heq
        exact ⟨d, hd, c :: p :: qs, hqs.child hc hn, rfl⟩

theorem mem_ways {n : Node} {above ps : List Node} :
    ps ∈ n.ways above ↔ ∃ qs, Path n qs ∧ ps = qs ++ above := by
  induction n using induct generalizing above ps with
  | step n ih =>
    rw [ways_eq, List.mem_cons, List.mem_flatMap]
    constructor
    · rintro (rfl | ⟨c, hc, hps⟩)
      · exact ⟨[n], .root, rfl⟩
      · obtain ⟨hmem, hnamed⟩ := List.mem_filter.mp hc
        obtain ⟨qs, hqs, rfl⟩ := (ih c hmem).mp hps
        exact ⟨qs ++ [n], hqs.trans (.child .root hmem hnamed), by simp⟩
    · rintro ⟨qs, hqs, rfl⟩
      rcases hqs.cases_child with rfl | ⟨c, hc, rs, hrs, rfl⟩
      · exact .inl rfl
      · refine .inr ⟨c, hc, (ih c (List.mem_filter.mp hc).1).mpr ⟨rs, hrs, ?_⟩⟩
        simp

theorem mem_everything_of_ways {n x : Node} {above ps : List Node} (h : ps ∈ n.ways above)
    (hx : ps.head? = some x) : x ∈ n.everything := by
  obtain ⟨qs, hqs, rfl⟩ := mem_ways.mp h
  cases qs with
  | nil => cases hqs
  | cons y qs =>
    cases hx
    exact hqs.mem_everything x List.mem_cons_self

theorem sizeOf_le_of_mem_everything {n m : Node} (h : m ∈ n.everything) : sizeOf m ≤ sizeOf n := by
  induction n using induct with
  | step n ih =>
    rcases mem_everything.mp h with rfl | ⟨c, hc, hm⟩
    · exact Nat.le_refl _
    · have hle := ih c hc hm
      have hlt : sizeOf c < sizeOf n := by
        obtain ⟨k, r, a, b, cs⟩ := n
        exact sizeOf_lt_of_mem hc
      omega

/-- No node that covers some text is the lower end of two ways. -/
theorem ways_apart {n : Node} (h : n.All Neat) (above : List Node) :
    (n.ways above).Pairwise fun ps qs =>
      ∀ x, x.kind.isSolid = true → ps.head? = some x → qs.head? ≠ some x := by
  induction n using induct generalizing above with
  | step n ih =>
    rw [ways_eq, List.pairwise_cons, List.pairwise_flatMap]
    refine ⟨fun qs hqs x _ hx hx' => ?_, fun c hc => ?_, ?_⟩
    · cases hx
      obtain ⟨c, hc, hqs⟩ := List.mem_flatMap.mp hqs
      have hle := sizeOf_le_of_mem_everything (mem_everything_of_ways hqs hx')
      have hlt : sizeOf c < sizeOf n := by
        obtain ⟨k, r, a, b, cs⟩ := n
        exact sizeOf_lt_of_mem (List.mem_filter.mp hc).1
      omega
    · have hc := (List.mem_filter.mp hc).1
      exact ih c hc (h.child hc) (n :: above)
    · refine (h.self.ordered.filter _).imp_of_mem
        fun {c d} hc hd hcd ps hps qs hqs x hsolid hx hx' => ?_
      obtain ⟨hc, -⟩ := List.mem_filter.mp hc
      obtain ⟨hd, hnamed⟩ := List.mem_filter.mp hd
      have hxc := mem_everything_of_ways hps hx
      have hxd := mem_everything_of_ways hqs hx'
      have hlt : x.start < x.stop := ((h.child hc).of_mem hxc).self.filled hsolid
      have := start_lt_of_before hcd hnamed (h.child hc) (h.child hd) hxc hlt hxd
      omega

end Node

/-! ## the edges of a place -/

def FunctionKind.isLiteral : FunctionKind → Bool
  | .literal .. => true
  | _ => false

def Portion.LeavesOut (portion : Portion) (c : Node) : Prop :=
  portion = .operand ∧ c.role ≠ some .operand ∨ portion = .declaration ∧ c.role = some .name

/-- Only leaves are left out of the children of a node. -/
def Portion.Suits (portion : Portion) (n : Node) : Prop :=
  ∀ c ∈ n.children, portion.LeavesOut c → c.children = []

namespace Portion

variable {n : Node} {among : Symbol → Prop}

theorem suits_all (n : Node) : all.Suits n := by
  rintro c - (⟨h, -⟩ | ⟨h, -⟩) <;> cases h

theorem suits_call (n : Node) : call.Suits n := by
  rintro c - (⟨h, -⟩ | ⟨h, -⟩) <;> cases h

theorem suits_operand (hmade : Made rule among n) (hk : n.kind = .selectorExpression) :
    operand.Suits n := by
  rintro c hc (⟨-, hrole⟩ | ⟨h, -⟩)
  · exact selector_leaf hmade hk hc hrole
  · cases h

theorem suits_declaration (hmade : Made rule among n) (hk : n.isDeclaration = true) :
    declaration.Suits n := by
  rintro c hc (⟨h, -⟩ | ⟨-, hrole⟩)
  · cases h
  · exact name_leaf hmade hk hc hrole

end Portion

namespace Names

variable {names : Names} {file : FileId} {bs : Bindings} {own : FunctionId}

/-- The function that the code right below some nodes runs in: that of the innermost literal, or the
one around all of them. -/
def around (names : Names) (file : FileId) (own : FunctionId) : List Node → FunctionId
  | [] => own
  | n :: above =>
    if n.kind = .funcLiteral then
      (functionAt? names.functions file n.start).getD (around names file own above)
    else around names file own above

/-- The edges of the node at the lower end of a way: a call leads to its callees, and a literal is
led to by the function around it. -/
def edgesAt (names : Names) (file : FileId) (bs : Bindings) (own : FunctionId) :
    List Node → List Edge
  | [] => []
  | n :: above =>
    match n.kind with
    | .callExpression => (names.callees file bs n).map fun callee =>
        ⟨names.around file own above, callee, some ⟨file, n⟩⟩
    | .funcLiteral => (functionAt? names.functions file n.start).toList.map fun literal =>
        ⟨names.around file own above, literal, none⟩
    | _ => []

theorem edgesAt_eq_nil {n : Node} {above : List Node} (hcall : n.kind ≠ .callExpression)
    (hliteral : n.kind ≠ .funcLiteral) : names.edgesAt file bs own (n :: above) = [] := by
  simp only [edgesAt]

theorem edgesAt_call {n : Node} {above : List Node} (h : n.kind = .callExpression) :
    names.edgesAt file bs own (n :: above) = (names.callees file bs n).map fun callee =>
      ⟨names.around file own above, callee, some ⟨file, n⟩⟩ := by
  simp only [edgesAt, h]

theorem edgesAt_literal {n : Node} {above : List Node} (h : n.kind = .funcLiteral) :
    names.edgesAt file bs own (n :: above) =
      (functionAt? names.functions file n.start).toList.map fun literal =>
        ⟨names.around file own above, literal, none⟩ := by
  simp only [edgesAt, h]

theorem around_literal {n : Node} {above : List Node} (h : n.kind = .funcLiteral) :
    names.around file own (n :: above) =
      (functionAt? names.functions file n.start).getD (names.around file own above) := by
  rw [around, if_pos h]

theorem around_other {n : Node} {above : List Node} (h : n.kind ≠ .funcLiteral) :
    names.around file own (n :: above) = names.around file own above := by
  rw [around, if_neg h]

/-- The edges that a test keeps do not stand for names of functions. -/
def Keeps (names : Names) (keep : Edge → Bool) : Prop :=
  ∀ caller callee, (names.functions[callee]?).any (·.kind.isLiteral) = false →
    keep ⟨caller, callee, none⟩ = false

theorem function?_isLiteral {package : PackageId} {name : String} {f : FunctionId}
    (h : names.function? package name = some f) :
    (names.functions[f]?).any (·.kind.isLiteral) = false := by
  unfold function? at h
  have hmem := List.mem_of_getLast? h
  obtain ⟨-, hf⟩ := List.mem_filter.mp hmem
  obtain ⟨g, hg, hkind⟩ := (Option.any_eq_true _ _).mp hf
  rw [hg]
  obtain ⟨kind, node⟩ := g
  cases kind with
  | declared => rfl
  | _ => cases hkind

theorem valueReference?_isLiteral {n : Node} {f : FunctionId}
    (h : names.valueReference? file bs n = some f) :
    (names.functions[f]?).any (·.kind.isLiteral) = false := by
  unfold valueReference? at h
  dsimp only at h
  split at h
  · cases h
  · exact function?_isLiteral h

theorem qualifiedReference?_isLiteral {n : Node} {f : FunctionId}
    (h : names.qualifiedReference? file bs n = some f) :
    (names.functions[f]?).any (·.kind.isLiteral) = false := by
  unfold qualifiedReference? at h
  obtain ⟨operand, -, h⟩ := Option.bind_eq_some_iff.mp h
  obtain ⟨field, -, h⟩ := Option.bind_eq_some_iff.mp h
  split at h
  · cases h
  · dsimp only at h
    split at h
    · cases h
    · split at h
      · exact function?_isLiteral h
      · cases h

theorem filter_references {keep : Edge → Bool} (hkeep : names.Keeps keep) {o : Option FunctionId}
    (ho : ∀ f, o = some f → (names.functions[f]?).any (·.kind.isLiteral) = false)
    (current : FunctionId) :
    (o.toList.map fun f => (⟨current, f, none⟩ : Edge)).filter keep = [] := by
  cases o with
  | none => rfl
  | some f =>
    have hf := hkeep current f (ho f rfl)
    simp [hf]

/-- The edges of a portion of the children, if what is left out are leaves. -/
theorem filter_edgesIn {keep : Edge → Bool} {current : FunctionId} {portion : Portion}
    {above cs : List Node}
    (hin : ∀ c ∈ cs, ∀ called, (names.edgesFrom file bs current called c).filter keep =
      ((c.ways above).flatMap (names.edgesAt file bs own)).filter keep)
    (hout : ∀ c ∈ cs, portion.LeavesOut c →
      (c.ways above).flatMap (names.edgesAt file bs own) = []) :
    (names.edgesIn file bs current portion cs).filter keep =
      (((cs.filter (·.kind.isNamed)).flatMap (Node.ways above)).flatMap
        (names.edgesAt file bs own)).filter keep := by
  induction cs with
  | nil => rfl
  | cons c cs ih =>
    have htail := ih (fun c hc => hin c (List.mem_cons_of_mem _ hc))
      fun c hc => hout c (List.mem_cons_of_mem _ hc)
    rw [edgesIn, List.filter_append, htail]
    by_cases hnamed : c.kind.isNamed = true
    · have hways : (c :: cs).filter (·.kind.isNamed) = c :: cs.filter (·.kind.isNamed) := by
        simp [hnamed]
      rw [hways, List.flatMap_cons, List.flatMap_append, List.filter_append]
      congr 1
      split
      case isTrue hskip =>
        rw [hout c List.mem_cons_self ?_]
        simp only [Bool.or_eq_true, Bool.and_eq_true, beq_iff_eq, bne_iff_ne, hnamed] at hskip
        simpa [Portion.LeavesOut] using hskip
      case isFalse => exact hin c List.mem_cons_self _
    · have hways : (c :: cs).filter (·.kind.isNamed) = cs.filter (·.kind.isNamed) := by
        simp [hnamed]
      rw [hways, if_pos (by simp [hnamed])]
      rfl

/-- The traversal of a tree, by its ways. -/
theorem filter_edgesFrom {keep : Edge → Bool} (hkeep : names.Keeps keep) {among : Symbol → Prop}
    {n : Node} (hmade : n.All (Made rule among)) (called : Bool) (above : List Node) :
    (names.edgesFrom file bs (names.around file own above) called n).filter keep =
      ((n.ways above).flatMap (names.edgesAt file bs own)).filter keep := by
  induction n using Node.induct generalizing above called with
  | step n ih =>
    have hleaf : ∀ c ∈ n.children, c.children = [] →
        (c.ways (n :: above)).flatMap (names.edgesAt file bs own) = [] := by
      intro c hc hchildren
      obtain ⟨hcall, hliteral⟩ := inert_of_leaf (hmade.child hc).self hchildren
      rw [Node.ways_of_leaf hchildren, List.flatMap_singleton, edgesAt_eq_nil hcall hliteral]
    have hin : ∀ portion : Portion, portion.Suits n →
        (names.edgesIn file bs (names.around file own (n :: above)) portion n.children).filter
          keep = ((n.codeChildren.flatMap (Node.ways (n :: above))).flatMap
            (names.edgesAt file bs own)).filter keep := by
      intro portion hout
      exact filter_edgesIn (fun c hc called => ih c hc (hmade.child hc) called (n :: above))
        fun c hc h => hleaf c hc (hout c hc h)
    have hother : n.kind ≠ .callExpression → n.kind ≠ .funcLiteral →
        ∀ portion : Portion, portion.Suits n →
        (names.edgesIn file bs (names.around file own above) portion n.children).filter keep =
          (names.edgesAt file bs own (n :: above)).filter keep ++
            ((n.codeChildren.flatMap (Node.ways (n :: above))).flatMap
              (names.edgesAt file bs own)).filter keep := by
      intro hcall hliteral portion hout
      rw [edgesAt_eq_nil hcall hliteral, ← hin portion hout, around_other hliteral]
      rfl
    rw [Node.ways_eq, List.flatMap_cons, List.filter_append]
    obtain ⟨k, r, a, b, cs⟩ := n
    unfold edgesFrom
    split
    case h_1 =>
      rw [edgesAt_literal rfl, ← hin .all (Portion.suits_all _), around_literal rfl,
        ← List.filter_append]
      congr 1
      split
      case h_1 literal hat =>
        simp only [Node.start, hat]
        rfl
      case h_2 hat =>
        simp only [Node.start, hat]
        rfl
    case h_2 =>
      have hrest := hin .call (Portion.suits_call _)
      have hkind : (Node.mk .callExpression r a b cs).kind ≠ .funcLiteral := nofun
      rw [around_other hkind] at hrest
      rw [edgesAt_call rfl, ← hrest, ← List.filter_append]
      rfl
    case h_3 =>
      rw [← hother nofun nofun .all (Portion.suits_all _)]
      have hnil : cs = [] := identifier_leaf hmade.self rfl
      subst hnil
      split
      · rfl
      · exact filter_references hkeep (fun f hf => valueReference?_isLiteral hf) _
    case h_4 =>
      split
      · exact hother nofun nofun .operand (Portion.suits_operand hmade.self rfl)
      · rw [← hother nofun nofun .all (Portion.suits_all _), List.filter_append,
          filter_references hkeep fun f hf => qualifiedReference?_isLiteral hf]
        rfl
    case h_5 => exact hother nofun nofun .declaration (Portion.suits_declaration hmade.self rfl)
    case h_6 => exact hother nofun nofun .declaration (Portion.suits_declaration hmade.self rfl)
    case h_7 hliteral hcall _ _ _ _ => exact hother hcall hliteral .all (Portion.suits_all _)

end Names

/-! ## the edges of a graph -/

/-- A spot in an item: the item, with its bindings, and the way up from a node in it. -/
structure Spot where
  item : Item
  bindings : Bindings
  way : List Node

def Program.spots (p : Program) : List Spot :=
  (Names.ofProgram p).2.flatMap fun x => (x.1.node.ways []).map fun way => ⟨x.1, x.2, way⟩

namespace Spot

def edges (names : Names) (x : Spot) : List Edge :=
  names.edgesAt x.item.file x.bindings (names.ownerOf x.item) x.way

end Spot

namespace Program

variable {p : Program}

theorem mem_spots {x : Spot} : x ∈ p.spots ↔
    (x.item, x.bindings) ∈ (Names.ofProgram p).2 ∧ Node.Path x.item.node x.way := by
  unfold spots
  constructor
  · intro h
    obtain ⟨y, hy, h⟩ := List.mem_flatMap.mp h
    obtain ⟨way, hway, rfl⟩ := List.mem_map.mp h
    obtain ⟨qs, hqs, rfl⟩ := Node.mem_ways.mp hway
    rw [List.append_nil]
    exact ⟨hy, hqs⟩
  · rintro ⟨hitem, hpath⟩
    refine List.mem_flatMap.mpr ⟨_, hitem, List.mem_map.mpr ⟨x.way, ?_, rfl⟩⟩
    exact Node.mem_ways.mpr ⟨x.way, hpath, (List.append_nil _).symm⟩

theorem mem_items_of_scanned {x : Item × Bindings} (h : x ∈ (Names.ofProgram p).2) :
    x.1 ∈ p.items := by
  rw [← Names.items_ofProgram]
  exact List.mem_map_of_mem h

theorem spots_apart (hp : p.WellFormed) : p.spots.Pairwise fun x y =>
    x.item.file = y.item.file → ∀ n, n.kind.isSolid = true → x.way.head? = some n →
      y.way.head? ≠ some n := by
  have hitems : (Names.ofProgram p).2.Pairwise fun x y =>
      x.1.file = y.1.file → Before x.1.node y.1.node := by
    have hordered := items_ordered hp
    rw [← Names.items_ofProgram] at hordered
    exact List.pairwise_map.mp hordered
  unfold spots
  rw [List.pairwise_flatMap]
  constructor
  · intro x hx
    have hi := itemOf_mem (mem_items_of_scanned hx)
    rw [List.pairwise_map]
    refine (Node.ways_apart (hi.tree hp).1 []).imp ?_
    intro ps qs h _
    exact h
  · refine hitems.imp_of_mem fun {x y} hx hy hxy u hu v hv hfile n hsolid hun hvn => ?_
    obtain ⟨way, hway, rfl⟩ := List.mem_map.mp hu
    obtain ⟨way', hway', rfl⟩ := List.mem_map.mp hv
    have hi := itemOf_mem (mem_items_of_scanned hx)
    have hj := itemOf_mem (mem_items_of_scanned hy)
    have hn := Node.mem_everything_of_ways hway hun
    have hn' := Node.mem_everything_of_ways hway' hvn
    have hlt : n.start < n.stop := ((hi.tree hp).1.of_mem hn).self.filled hsolid
    have := Node.start_lt_of_before (hxy hfile) hj.named (hi.tree hp).1 (hj.tree hp).1 hn hlt hn'
    omega

end Program

namespace CallGraph

variable {p : Program} {scope : Scope} {keep : Edge → Bool}

theorem filter_wiring (hkeep : (Names.ofProgram p).1.Keeps keep) {id : FunctionId}
    {f : FunctionNode}
    (hf : p.functions[id]? = some f) : (scope.wiring p id f).filter keep = [] := by
  have hid : ∀ caller, f.kind.isLiteral = false → keep ⟨caller, id, none⟩ = false := by
    intro caller hkind
    refine hkeep caller id ?_
    rw [Names.functions_ofProgram, hf]
    exact hkind
  rw [List.filter_eq_nil_iff]
  intro e he
  unfold Scope.wiring at he
  split at he
  case h_1 hkind =>
    simp only [List.mem_append] at he
    rcases he with (he | he) | he <;>
    · split at he
      · rw [List.mem_singleton.mp he, hid _ (by rw [hkind]; rfl)]
        decide
      · cases he
  case h_2 => cases he

/-- The edges of a graph that are kept, spot by spot. -/
theorem filter_edges (hp : p.WellFormed) (hkeep : (Names.ofProgram p).1.Keeps keep) :
    (build p scope).edges.filter keep =
      (p.spots.flatMap (Spot.edges (Names.ofProgram p).1)).filter keep := by
  have htest : keep ⟨rootFunction, testFunction, none⟩ = false := by
    refine hkeep _ _ ?_
    rw [Names.functions_ofProgram, Program.functions_eq]
    rfl
  have hinit : ((List.range p.packages.length).map
      fun id => (⟨rootFunction, initFunction id, none⟩ : Edge)).filter keep = [] := by
    rw [List.filter_eq_nil_iff]
    intro e he
    obtain ⟨id, hid, rfl⟩ := List.mem_map.mp he
    rw [hkeep _ _ ?_]
    · decide
    · rw [Names.functions_ofProgram, Program.functions_init (List.mem_range.mp hid)]
      rfl
  have hwiring : ((Names.ofProgram p).1.functions.zipIdx.flatMap
      fun x => scope.wiring p x.2 x.1).filter keep = [] := by
    rw [List.filter_flatMap, List.flatMap_eq_nil_iff]
    intro x hx
    refine filter_wiring hkeep ?_
    rw [← Names.functions_ofProgram]
    exact List.mem_zipIdx_iff_getElem?.mp hx
  have hitems : ((Names.ofProgram p).2.flatMap
      fun x => (Names.ofProgram p).1.edgesOf x.1 x.2).filter keep =
      (p.spots.flatMap (Spot.edges (Names.ofProgram p).1)).filter keep := by
    unfold Program.spots
    rw [List.flatMap_assoc, List.filter_flatMap, List.filter_flatMap]
    refine List.flatMap_congr fun x hx => ?_
    have hi := Program.itemOf_mem (Program.mem_items_of_scanned hx)
    rw [List.flatMap_map]
    exact Names.filter_edgesFrom hkeep (hi.tree hp).2 false []
  rw [edges_build, List.cons_append, List.cons_append,
    List.filter_cons_of_neg (by rw [htest]; decide),
    List.filter_append, List.filter_append, hinit, hwiring, hitems]
  rfl

end CallGraph

end ParamThreading
