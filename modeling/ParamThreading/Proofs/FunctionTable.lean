import Mathlib.Data.List.Induction
import Mathlib.Data.List.Pairwise
import ParamThreading.Analysis.Callers
import ParamThreading.Proofs.LoadedProgram

/-!
# The table of functions

No two functions of a program start at the same place, so that a function is found again by the
place where it starts.

* `PlaceIndex.lookup_ofFunctions`  at a place the last function is found that was recorded there;
* `Program.functions_apart`  functions start at different places;
* `Program.functionAt?_eq`  what is found at the start of a function is that function;
* `Program.items_ordered`  items of a file lie behind each other.
-/

namespace ParamThreading

open Rule Grammar

/-! ## nodes in the order of the text -/

namespace Node

variable {n m x y : Node}

theorem covers (h : n.All Neat) (hm : m ∈ n.everything) : n.start ≤ m.start ∧ m.stop ≤ n.stop := by
  induction n using induct with
  | step n ih =>
    rcases mem_everything.mp hm with rfl | ⟨c, hc, hm⟩
    · exact ⟨Nat.le_refl _, Nat.le_refl _⟩
    · obtain ⟨h₁, h₂⟩ := h.self.within c hc
      obtain ⟨h₃, h₄⟩ := ih c hc (h.child hc) hm
      exact ⟨h₁.trans h₃, h₄.trans h₂⟩

theorem start_lt_of_before (hxy : Before x y) (hy : y.kind.isNamed = true) (hx' : x.All Neat)
    (hy' : y.All Neat) {m m' : Node} (hm : m ∈ x.everything) (hlt : m.start < m.stop)
    (hm' : m' ∈ y.everything) : m.start < m'.start := by
  have h₁ := (covers hx' hm).2
  have h₂ := (covers hy' hm').1
  have h₃ := hxy.2.2 hy
  omega

theorem before_or_before {cs : List Node} (h : cs.Pairwise Before) (hx : x ∈ cs) (hy : y ∈ cs)
    (hne : x ≠ y) : Before x y ∨ Before y x := by
  have hsymm : Std.Symm fun a b => Before a b ∨ Before b a := ⟨fun _ _ => Or.symm⟩
  have h' : cs.Pairwise fun a b => Before a b ∨ Before b a := h.imp Or.inl
  exact h'.forall hx hy hne

/-- A function or argument list starts before what lies in its named children, since it begins with
a token. -/
theorem start_lt_of_opened {among : Symbol → Prop} (h : n.All Neat) (hmade : Made rule among n)
    (hk : isOpened n.kind = true) {c : Node} (hc : c ∈ n.codeChildren) (hm : m ∈ c.everything) :
    n.start < m.start := by
  obtain ⟨⟨t, cs, hcs, ht⟩, -⟩ := opened_begins hmade hk
  obtain ⟨hc, hnamed⟩ := List.mem_filter.mp hc
  have htmem : t ∈ n.children := by rw [hcs]; exact List.mem_cons_self
  have htc : Before t c := by
    have hordered := h.self.ordered
    rw [hcs] at hordered hc
    rcases List.mem_cons.mp hc with rfl | hc
    · rw [ht] at hnamed; cases hnamed
    · exact (List.pairwise_cons.mp hordered).1 c hc
  have h₁ := (h.self.within t htmem).1
  have h₂ : t.start < t.stop := (h.child htmem).self.filled (by rw [ht]; rfl)
  have h₃ := htc.2.2 hnamed
  have h₄ := (covers (h.child (List.mem_filter.mp ‹c ∈ n.codeChildren›).1) hm).1
  omega

theorem mem_everything_of_mem_backward (h : m ∈ n.backward) : m ∈ n.everything := by
  induction n using induct with
  | step n ih =>
    rw [backward_eq] at h
    rcases List.mem_cons.mp h with rfl | h
    · exact self_mem_everything m
    · obtain ⟨c, hc, hm⟩ := List.mem_flatMap.mp h
      have hc := (List.mem_filter.mp (List.mem_reverse.mp hc)).1
      exact mem_everything.mpr (.inr ⟨c, hc, ih c hc hm⟩)

theorem literals_apart {among : Symbol → Prop} (h : n.All Neat) (hmade : n.All (Made rule among)) :
    (n.backward.filter (·.kind = .funcLiteral)).Pairwise (·.start ≠ ·.start) := by
  induction n using induct with
  | step n ih =>
    have hrest : ((n.codeChildren.reverse.flatMap backward).filter (·.kind = .funcLiteral)).Pairwise
        (·.start ≠ ·.start) := by
      rw [List.filter_flatMap, List.pairwise_flatMap]
      refine ⟨fun c hc => ?_, List.pairwise_reverse.mpr ?_⟩
      · have hc := (List.mem_filter.mp (List.mem_reverse.mp hc)).1
        exact ih c hc (h.child hc) (hmade.child hc)
      · refine (h.self.ordered.filter _).imp_of_mem fun {x y} hx hy hxy m hm m' hm' => ?_
        obtain ⟨hx, -⟩ := List.mem_filter.mp hx
        obtain ⟨hy, hnamed⟩ := List.mem_filter.mp hy
        obtain ⟨hm, -⟩ := List.mem_filter.mp hm
        obtain ⟨hm', hlit⟩ := List.mem_filter.mp hm'
        have hlit : m'.kind = .funcLiteral := by simpa using hlit
        have hm' := mem_everything_of_mem_backward hm'
        have hm := mem_everything_of_mem_backward hm
        have hlt : m'.start < m'.stop :=
          ((h.child hx).of_mem hm').self.filled (by rw [hlit]; rfl)
        have := start_lt_of_before hxy hnamed (h.child hx) (h.child hy) hm' hlt hm
        omega
    rw [backward_eq, List.filter_cons]
    split
    case isTrue hn =>
      refine List.pairwise_cons.mpr ⟨fun m hm => ?_, hrest⟩
      obtain ⟨hm, -⟩ := List.mem_filter.mp hm
      obtain ⟨c, hc, hm⟩ := List.mem_flatMap.mp hm
      have hk : isOpened n.kind = true := by rw [of_decide_eq_true hn]; rfl
      have := start_lt_of_opened h hmade.self hk (List.mem_reverse.mp hc)
        (mem_everything_of_mem_backward hm)
      omega
    case isFalse => exact hrest

end Node

/-! ## functions by their places -/

namespace FunctionNode

variable {f : FunctionNode} {file : FileId}

theorem place?_eq_some {offset : Nat} : f.place? = some (file, offset) ↔
    ∃ n, f.kind.file? = some file ∧ f.node = some n ∧ n.start = offset := by
  unfold place?
  cases f.kind.file? <;> cases f.node <;> simp

theorem place?_eq {n : Node} (hfile : f.kind.file? = some file) (hn : f.node = some n) :
    f.place? = some (file, n.start) :=
  place?_eq_some.mpr ⟨n, hfile, hn, rfl⟩

end FunctionNode

namespace PlaceIndex

theorem lookup_record (index : PlaceIndex) (f : FunctionNode) (id : FunctionId)
    (place : FileId × Nat) : (index.record (f, id)).lookup place =
      if f.place? = some place then some id else index.lookup place := by
  unfold record
  cases hf : f.place? with
  | none => simp
  | some other =>
    by_cases hother : other = place
    · simp [hother]
    · have hne : (place == other) = false := by simpa using Ne.symm hother
      simp [List.lookup_cons, hne, hother]

theorem ofFunctions_concat (functions : List FunctionNode) (f : FunctionNode) :
    ofFunctions (functions ++ [f]) = (ofFunctions functions).record (f, functions.length) := by
  simp [ofFunctions, List.zipIdx_append]

theorem getElem?_concat_eq_some {functions : List FunctionNode} {f g : FunctionNode} {j : Nat} :
    (functions ++ [f])[j]? = some g ↔ functions[j]? = some g ∨ j = functions.length ∧ f = g := by
  rcases Nat.lt_trichotomy j functions.length with hj | rfl | hj
  · simp [List.getElem?_append_left hj, hj.ne]
  · simp
  · have hlength : (functions ++ [f]).length ≤ j := by
      rw [List.length_append]
      exact Nat.succ_le_of_lt hj
    rw [List.getElem?_eq_none hlength, List.getElem?_eq_none hj.le]
    simp [hj.ne']

/-- At a place the last function is found that starts there. -/
theorem lookup_ofFunctions {functions : List FunctionNode} {place : FileId × Nat}
    {id : FunctionId} : (ofFunctions functions).lookup place = some id ↔
      (∃ f, functions[id]? = some f ∧ f.place? = some place) ∧
        ∀ j f, id < j → functions[j]? = some f → f.place? ≠ some place := by
  induction functions using List.reverseRecOn with
  | nil => simp [ofFunctions]
  | append_singleton functions f ih =>
    simp only [ofFunctions_concat, lookup_record, getElem?_concat_eq_some]
    have hbound : ∀ {j g}, functions[j]? = some g → j < functions.length :=
      fun hg => (List.getElem?_eq_some_iff.mp hg).1
    by_cases hplace : f.place? = some place
    · rw [if_pos hplace, Option.some.injEq]
      constructor
      · rintro rfl
        refine ⟨⟨f, .inr ⟨rfl, rfl⟩, hplace⟩, ?_⟩
        rintro j g hj (hg | ⟨rfl, -⟩)
        · exact absurd (hbound hg) hj.not_gt
        · exact absurd hj (Nat.lt_irrefl _)
      · rintro ⟨⟨g, hg | ⟨rfl, -⟩, -⟩, hlast⟩
        · exact absurd hplace (hlast _ f (hbound hg) (.inr ⟨rfl, rfl⟩))
        · rfl
    · -- the new function stands elsewhere, so that nothing changes
      rw [if_neg hplace, ih]
      constructor
      · rintro ⟨⟨g, hg, hgplace⟩, hlast⟩
        refine ⟨⟨g, .inl hg, hgplace⟩, ?_⟩
        rintro j g hj (hg | ⟨-, rfl⟩)
        · exact hlast j g hj hg
        · exact hplace
      · rintro ⟨⟨g, hg | ⟨-, rfl⟩, hgplace⟩, hlast⟩
        · exact ⟨⟨g, hg, hgplace⟩, fun j g hj hg => hlast j g hj (.inl hg)⟩
        · exact absurd hgplace hplace

end PlaceIndex

/-! ## functions and items -/

def Apart (f g : FunctionNode) : Prop :=
  ∀ file n m, f.kind.file? = some file → g.kind.file? = some file → f.node = some n →
    g.node = some m → n.start ≠ m.start

namespace Program

variable {p : Program}

theorem declaredFunction?_eq_some {file : FileId} {n : Node} {f : FunctionNode}
    (h : p.declaredFunction? file n = some f) : n.isDeclaration = true ∧ f.node = some n ∧
      f.kind.file? = some file ∧ CallerKind.ofFunction f.kind = .function := by
  unfold declaredFunction? at h
  dsimp only at h
  split at h
  case h_1 hk =>
    obtain ⟨name, -, h⟩ := Option.bind_eq_some_iff.mp h
    cases h
    exact ⟨by rw [Node.isDeclaration_eq, hk]; rfl, rfl, rfl, rfl⟩
  case h_2 hk =>
    obtain ⟨name, -, h⟩ := Option.bind_eq_some_iff.mp h
    cases h
    exact ⟨by rw [Node.isDeclaration_eq, hk]; rfl, rfl, rfl, rfl⟩
  case h_3 => cases h

theorem declaredFunction?_isSome {text : String} {root : Node} (h : SourceTree text root) {d : Node}
    (hd : d ∈ root.children) (hdecl : d.isDeclaration = true) (file : FileId) :
    ∃ f, p.declaredFunction? file d = some f := by
  obtain ⟨params, hshape, -⟩ := h.declaration d hd hdecl
  obtain ⟨name, hname⟩ := hshape.name
  have hk := hdecl
  simp only [Node.isDeclaration, Bool.or_eq_true, decide_eq_true_eq] at hk
  unfold declaredFunction?
  rcases hk with hk | hk <;> simp [hk, Node.textIn?, hname]

/-- What is known of an item. -/
structure ItemOf (p : Program) (i : Item) : Prop where
  file : i.file < p.files.length
  child : i.node ∈ (p.file i.file).tree.children
  named : i.node.kind.isNamed = true
  isFunction : i.isFunction = i.node.isDeclaration
  kind : i.node.kind ≠ .funcLiteral

theorem item?_eq_some {file : FileId} {n : Node} {i : Item} (h : p.item? file n = some i) :
    i.file = file ∧ i.node = n ∧ i.isFunction = n.isDeclaration ∧ n.kind.isNamed = true ∧
      n.kind ≠ .funcLiteral := by
  unfold item? at h
  split at h
  case h_1 hk =>
    obtain ⟨_, -, rfl⟩ := Option.map_eq_some_iff.mp h
    simp [Node.isDeclaration, hk, Kind.isNamed]
  case h_2 hk =>
    obtain ⟨_, -, rfl⟩ := Option.map_eq_some_iff.mp h
    simp [Node.isDeclaration, hk, Kind.isNamed]
  case h_3 hk =>
    cases h
    simp [Node.isDeclaration, hk, Kind.isNamed]
  case h_4 hk =>
    cases h
    simp [Node.isDeclaration, hk, Kind.isNamed]
  case h_5 => cases h

theorem itemOf_mem {i : Item} (h : i ∈ p.items) : p.ItemOf i := by
  obtain ⟨file, hfile, h⟩ := List.mem_flatMap.mp h
  obtain ⟨n, hn, h⟩ := List.mem_filterMap.mp h
  obtain ⟨rfl, rfl, hf, hnamed, hkind⟩ := item?_eq_some h
  exact ⟨List.mem_range.mp hfile, (List.mem_filter.mp hn).1, hnamed, hf, hkind⟩

theorem ItemOf.literal_below {i : Item} (hi : p.ItemOf i) {m : Node} (hm : m ∈ i.node.backward)
    (hk : m.kind = .funcLiteral) : ∃ c ∈ i.node.codeChildren, m ∈ c.everything := by
  rw [Node.backward_eq] at hm
  rcases List.mem_cons.mp hm with rfl | hm
  · exact absurd hk hi.kind
  · obtain ⟨c, hc, hm⟩ := List.mem_flatMap.mp hm
    exact ⟨c, List.mem_reverse.mp hc, Node.mem_everything_of_mem_backward hm⟩

theorem items_ordered (hp : p.WellFormed) :
    p.items.Pairwise fun i j => i.file = j.file → Before i.node j.node := by
  unfold items
  rw [List.pairwise_flatMap]
  refine ⟨fun file hfile => ?_, List.nodup_range.imp fun {a b} hab i hi j hj hij => ?_⟩
  · rw [List.pairwise_filterMap]
    have htree := hp.tree _ (file_mem (List.mem_range.mp hfile))
    refine (htree.ordered.filter _).imp fun {x y} hxy i hi j hj _ => ?_
    rw [(item?_eq_some hi).2.1, (item?_eq_some hj).2.1]
    exact hxy
  · obtain ⟨_, -, hi⟩ := List.mem_filterMap.mp hi
    obtain ⟨_, -, hj⟩ := List.mem_filterMap.mp hj
    rw [(item?_eq_some hi).1, (item?_eq_some hj).1] at hij
    exact absurd hij hab

theorem mem_declaredIn {file : FileId} {f : FunctionNode} (h : f ∈ p.declaredIn file) :
    ∃ n ∈ (p.file file).tree.children, n.isDeclaration = true ∧ f.node = some n ∧
      f.kind.file? = some file ∧ CallerKind.ofFunction f.kind = .function := by
  obtain ⟨n, hn, h⟩ := List.mem_filterMap.mp h
  exact ⟨n, (List.mem_filter.mp hn).1, declaredFunction?_eq_some h⟩

theorem mem_literalsIn {i : Item} {f : FunctionNode} (h : f ∈ p.literalsIn i) :
    ∃ n ∈ i.node.backward, n.kind = .funcLiteral ∧
      f = ⟨.literal (p.file i.file).package i.file i.isFunction, some n⟩ := by
  obtain ⟨n, hn, rfl⟩ := List.mem_map.mp h
  obtain ⟨hn, hk⟩ := List.mem_filter.mp hn
  exact ⟨n, hn, of_decide_eq_true hk, rfl⟩

theorem declared_apart (hp : p.WellFormed) :
    ((List.range p.files.length).flatMap p.declaredIn).Pairwise Apart := by
  rw [List.pairwise_flatMap]
  refine ⟨fun file hfile => ?_, List.nodup_range.imp fun {a b} hab f hf g hg file n m => ?_⟩
  · have htree := hp.tree _ (file_mem (List.mem_range.mp hfile))
    unfold declaredIn
    rw [List.pairwise_filterMap]
    refine (htree.ordered.filter _).imp_of_mem fun {x y} hx hy hxy f hf g hg file n m _ _ hn hm =>
      ?_
    obtain ⟨-, hfx, -⟩ := declaredFunction?_eq_some hf
    obtain ⟨-, hgy, -⟩ := declaredFunction?_eq_some hg
    cases hfx.symm.trans hn
    cases hgy.symm.trans hm
    have h₁ := htree.filled x (List.mem_filter.mp hx).1
    have h₂ := hxy.2.2 (List.mem_filter.mp hy).2
    omega
  · intro hfile hfile' _ _
    obtain ⟨_, -, -, -, hf, -⟩ := mem_declaredIn hf
    obtain ⟨_, -, -, -, hg, -⟩ := mem_declaredIn hg
    exact absurd (Option.some.inj (hf.symm.trans (hfile.trans (hfile'.symm.trans hg)))) hab

theorem ItemOf.tree (hp : p.WellFormed) {i : Item} (hi : p.ItemOf i) :
    i.node.All Node.Neat ∧ i.node.All (Made rule fun _ => True) :=
  let htree := hp.tree _ (file_mem hi.file)
  ⟨htree.neat _ hi.child, htree.made _ hi.child⟩

theorem literals_apart (hp : p.WellFormed) : (p.items.flatMap p.literalsIn).Pairwise Apart := by
  rw [List.pairwise_flatMap]
  refine ⟨fun i hi => ?_, (items_ordered hp).imp_of_mem fun {i j} hi hj hij f hf g hg => ?_⟩
  · obtain ⟨hneat, hmade⟩ := (itemOf_mem hi).tree hp
    unfold literalsIn
    rw [List.pairwise_map]
    refine (Node.literals_apart hneat hmade).imp fun {x y} hxy file n m _ _ hn hm => ?_
    cases hn
    cases hm
    exact hxy
  · obtain ⟨x, hx, hxk, rfl⟩ := mem_literalsIn hf
    obtain ⟨y, hy, -, rfl⟩ := mem_literalsIn hg
    intro file n m hfile hfile' hn hm
    cases hn
    cases hm
    have hneat := ((itemOf_mem hi).tree hp).1
    have hx := Node.mem_everything_of_mem_backward hx
    have hlt := Node.start_lt_of_before (hij (Option.some.inj (hfile.trans hfile'.symm)))
      (itemOf_mem hj).named hneat ((itemOf_mem hj).tree hp).1 hx
      ((hneat.of_mem hx).self.filled (by rw [hxk]; rfl)) (Node.mem_everything_of_mem_backward hy)
    omega

theorem declared_apart_literal (hp : p.WellFormed) {file : FileId} {i : Item} {f g : FunctionNode}
    (hf : f ∈ p.declaredIn file) (hi : p.ItemOf i) (hg : g ∈ p.literalsIn i) : Apart f g := by
  obtain ⟨d, hd, hdecl, hfd, hfile, -⟩ := mem_declaredIn hf
  obtain ⟨l, hl, hlk, rfl⟩ := mem_literalsIn hg
  intro file' n m hfile₁ hfile₂ hn hm
  cases hfd.symm.trans hn
  cases hm
  cases hfile.symm.trans hfile₁
  cases hfile₂
  have htree := hp.tree _ (file_mem hi.file)
  obtain ⟨hneat, hmade⟩ := hi.tree hp
  by_cases hne : d = i.node
  · obtain ⟨c, hc, hlc⟩ := hi.literal_below hl hlk
    rw [hne] at hdecl ⊢
    have hfun : i.node.isFunction = true := by simp [Node.isFunction, hdecl]
    rw [Node.isFunction_eq] at hfun
    have hlt := Node.start_lt_of_opened hneat hmade.self (isOpened_of_isFunction hfun) hc hlc
    omega
  · have hl := Node.mem_everything_of_mem_backward hl
    have hllt : l.start < l.stop := (hneat.of_mem hl).self.filled (by rw [hlk]; rfl)
    rcases Node.before_or_before htree.ordered hd hi.child hne with h | h
    · have hlt := Node.start_lt_of_before h hi.named (htree.neat d hd) hneat
        (Node.self_mem_everything d) (htree.filled d hd) hl
      omega
    · have hlt := Node.start_lt_of_before h (Node.isNamed_of_isDeclaration hdecl) hneat
        (htree.neat d hd) hl hllt (Node.self_mem_everything d)
      omega

/-- No two functions of a program start at the same place. -/
theorem functions_apart (hp : p.WellFormed) : p.functions.Pairwise Apart := by
  unfold functions
  rw [List.pairwise_append, List.pairwise_append]
  have hnone : ∀ f ∈ [⟨.root, none⟩, ⟨.testMain, none⟩] ++
      (List.range p.packages.length).map (fun id => (⟨.packageInit id, none⟩ : FunctionNode)),
      f.node = none := by
    intro f hf
    rcases List.mem_append.mp hf with hf | hf
    · rcases List.mem_pair.mp hf with rfl | rfl <;> rfl
    · obtain ⟨_, -, rfl⟩ := List.mem_map.mp hf
      rfl
  have hapart : ∀ f g : FunctionNode, f.node = none → Apart f g := by
    intro f g hf file n m _ _ hn
    rw [hf] at hn
    cases hn
  refine ⟨⟨?_, declared_apart hp, fun f hf g _ => hapart f g (hnone f hf)⟩, literals_apart hp, ?_⟩
  · exact List.pairwise_iff_getElem.mpr fun i j hi hj _ =>
      hapart _ _ (hnone _ (List.getElem_mem hi))
  · intro f hf g hg
    rcases List.mem_append.mp hf with hf | hf
    · exact hapart f g (hnone f hf)
    · obtain ⟨file, -, hf⟩ := List.mem_flatMap.mp hf
      obtain ⟨i, hi, hg⟩ := List.mem_flatMap.mp hg
      exact declared_apart_literal hp hf (itemOf_mem hi) hg

/-- What is found at the start of a function is that function. -/
theorem functionAt?_eq (hp : p.WellFormed) {id : FunctionId} {f : FunctionNode} {file : FileId}
    {n : Node} (hf : p.functions[id]? = some f) (hfile : f.kind.file? = some file)
    (hn : f.node = some n) : functionAt? p.functions file n.start = some id := by
  obtain ⟨hlt, hget⟩ := List.getElem?_eq_some_iff.mp hf
  refine PlaceIndex.lookup_ofFunctions.mpr ⟨⟨f, hf, FunctionNode.place?_eq hfile hn⟩,
    fun j g hj hg hplace => ?_⟩
  obtain ⟨hltj, hgetj⟩ := List.getElem?_eq_some_iff.mp hg
  have hapart := List.pairwise_iff_getElem.mp (functions_apart hp) id j hlt hltj hj
  rw [hget, hgetj] at hapart
  obtain ⟨m, hfile', hm, hstart⟩ := FunctionNode.place?_eq_some.mp hplace
  exact hapart file n m hfile hfile' hn hm hstart.symm

end Program

end ParamThreading
