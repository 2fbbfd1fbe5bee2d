import ParamThreading.Proofs.GoLists
import ParamThreading.Proofs.GraphEdges

/-!
# Where insertions go

Each list of a file has places of its own: behind its opening parenthesis, and behind each of its
elements. No other list has these places, wherever it stands.

* `Node.laminar`  nodes of a tree lie inside each other or apart;
* `Node.HasPlace`  the places of a list;
* `Program.HasNode.eq_of_place`  they belong to no other list.
-/

namespace ParamThreading

open Rule Grammar

/-! ## nodes inside each other -/

namespace Node

variable {n x y : Node} {among : Symbol → Prop}

theorem eq_of_mem_everything (h : x ∈ y.everything) (h' : y ∈ x.everything) : x = y := by
  rcases mem_everything.mp h with rfl | ⟨c, hc, hx⟩
  · rfl
  · have hle := sizeOf_le_of_mem_everything (everything_trans h' hx)
    have hlt : sizeOf c < sizeOf y := by
      obtain ⟨k, r, a, b, cs⟩ := y
      exact sizeOf_lt_of_mem hc
    omega

theorem exists_codeChild (h : n.All (Made rule among)) (hx : x ∈ n.everything)
    (hnamed : x.kind.isNamed = true) (hne : x ≠ n) : ∃ c ∈ n.codeChildren, x ∈ c.everything := by
  rcases mem_everything.mp hx with rfl | ⟨c, hc, hxc⟩
  · exact absurd rfl hne
  · exact ⟨c, List.mem_filter.mpr ⟨hc, isNamed_of_mem (h.child hc).self hxc hnamed⟩, hxc⟩

def Laminar (x y : Node) : Prop :=
  x ∈ y.everything ∨ y ∈ x.everything ∨ x.stop ≤ y.start ∨ y.stop ≤ x.start

theorem laminar_siblings {cs : List Node} (hcs : cs.Pairwise Before) (hneat : ∀ c ∈ cs, c.All Neat)
    (hmade : ∀ c ∈ cs, c.All (Made rule among)) (hx : ∃ c ∈ cs, x ∈ c.everything)
    (hy : ∃ c ∈ cs, y ∈ c.everything) (hxn : x.kind.isNamed = true) (hyn : y.kind.isNamed = true)
    (hsame : ∀ c ∈ cs, x ∈ c.everything → y ∈ c.everything → Laminar x y) : Laminar x y := by
  obtain ⟨c, hc, hxc⟩ := hx
  obtain ⟨d, hd, hyd⟩ := hy
  by_cases hcd : c = d
  · cases hcd
    exact hsame c hc hxc hyd
  · have h₁ := covers (hneat c hc) hxc
    have h₂ := covers (hneat d hd) hyd
    rcases before_or_before hcs hc hd hcd with hb | hb
    · have hle := hb.2.2 (isNamed_of_mem (hmade d hd).self hyd hyn)
      exact .inr (.inr (.inl (by omega)))
    · have hle := hb.2.2 (isNamed_of_mem (hmade c hc).self hxc hxn)
      exact .inr (.inr (.inr (by omega)))

/-- Named nodes of a tree lie inside each other or apart. -/
theorem laminar (hneat : n.All Neat) (hmade : n.All (Made rule among)) (hx : x ∈ n.everything)
    (hy : y ∈ n.everything) (hxn : x.kind.isNamed = true) (hyn : y.kind.isNamed = true) :
    Laminar x y := by
  induction n using induct with
  | step n ih =>
    rcases mem_everything.mp hx with rfl | hx
    · exact .inr (.inl hy)
    rcases mem_everything.mp hy with rfl | hy
    · exact .inl (mem_everything.mpr (.inr hx))
    exact laminar_siblings hneat.self.ordered (fun c hc => hneat.child hc)
      (fun c hc => hmade.child hc)
      hx hy hxn hyn fun c hc => ih c hc (hneat.child hc) (hmade.child hc)

end Node

/-! ## the places of lists -/

/-- An offset is behind the opening parenthesis of a list or behind one of its elements. -/
def Node.HasPlace (list : Node) (offset : Nat) : Prop :=
  offset = list.start + 1 ∨ ∃ c ∈ list.codeChildren, c.start < c.stop ∧ offset = c.stop

/-- A node below the top of one of the files of a program. -/
structure Program.HasNode (p : Program) (file : FileId) (n : Node) : Prop where
  loaded : file < p.files.length
  inside : ∃ c ∈ (p.file file).tree.children, n ∈ c.everything
  named : n.kind.isNamed = true

namespace Program.HasNode

variable {p : Program} {file : FileId} {x y list list' : Node}

theorem laminar (hp : p.WellFormed) (hx : p.HasNode file x) (hy : p.HasNode file y) :
    Node.Laminar x y := by
  have htree := hp.tree _ (file_mem hx.loaded)
  exact Node.laminar_siblings htree.ordered htree.neat htree.made hx.inside hy.inside
    hx.named hy.named
    fun c hc hxc hyc => Node.laminar (htree.neat c hc) (htree.made c hc) hxc hyc hx.named hy.named

theorem neat (hp : p.WellFormed) (hx : p.HasNode file x) : x.All Node.Neat := by
  obtain ⟨c, hc, hxc⟩ := hx.inside
  exact ((hp.tree _ (file_mem hx.loaded)).neat c hc).of_mem hxc

theorem made (hp : p.WellFormed) (hx : p.HasNode file x) : x.All (Made rule fun _ => True) := by
  obtain ⟨c, hc, hxc⟩ := hx.inside
  exact ((hp.tree _ (file_mem hx.loaded)).made c hc).of_mem hxc

theorem formed (hp : p.WellFormed) (hx : p.HasNode file x) :
    x.All
      (Formed rule putsHeld (Token.scan (p.file file).text) (p.file file).text.utf8ByteSize) := by
  obtain ⟨c, hc, hxc⟩ := hx.inside
  exact (parse_formed (hp.parsed _ (file_mem hx.loaded)) c hc).of_mem hxc

theorem child (hx : p.HasNode file x) (hy : y ∈ x.codeChildren) : p.HasNode file y := by
  obtain ⟨hmem, hnamed⟩ := List.mem_filter.mp hy
  obtain ⟨c, hc, hxc⟩ := hx.inside
  have hyx : y ∈ x.everything := Node.mem_everything.mpr (.inr ⟨y, hmem, y.self_mem_everything⟩)
  exact ⟨hx.loaded, ⟨c, hc, Node.everything_trans hyx hxc⟩, hnamed⟩

theorem between_child (hp : p.WellFormed) (hlist : p.HasNode file list)
    (hk : list.kind.isList = true) (hx : x ∈ list.codeChildren) :
    list.start < x.start ∧ x.stop < list.stop := by
  obtain ⟨first, last, mid, hshape⟩ := listShape (hlist.formed hp).self hk
  exact hshape.between hx

theorem between (hp : p.WellFormed) (hlist : p.HasNode file list) (hk : list.kind.isList = true)
    (hx : x ∈ list.everything) (hxn : x.kind.isNamed = true) (hne : x ≠ list) :
    list.start < x.start ∧ x.stop < list.stop := by
  obtain ⟨c, hc, hxc⟩ := Node.exists_codeChild (hlist.made hp) hx hxn hne
  have h₁ := hlist.between_child hp hk hc
  have h₂ := Node.covers ((hlist.neat hp).child (List.mem_filter.mp hc).1) hxc
  omega

theorem two_le (hp : p.WellFormed) (hlist : p.HasNode file list) (hk : list.kind.isList = true) :
    list.start + 2 ≤ list.stop := by
  obtain ⟨first, last, mid, hshape⟩ := listShape (hlist.formed hp).self hk
  exact hshape.two_le

theorem eq_of_child (hp : p.WellFormed) (hlist : p.HasNode file list) (hx : x ∈ list.codeChildren)
    (hy : y ∈ list.codeChildren) (hlt : x.start < x.stop)
    (hxy : y.start ≤ x.start ∧ x.stop ≤ y.stop) :
    x = y := by
  by_contra hne
  obtain ⟨hx, hxn⟩ := List.mem_filter.mp hx
  obtain ⟨hy, hyn⟩ := List.mem_filter.mp hy
  rcases Node.before_or_before (hlist.neat hp).self.ordered hx hy hne with hb | hb
  · have := hb.2.2 hyn
    omega
  · have := hb.2.2 hxn
    omega

theorem stop_ne_opening (hp : p.WellFormed) (hx : p.HasNode file x) (hlt : x.start < x.stop)
    (hlist : p.HasNode file list) (hk : list.kind.isList = true) : x.stop ≠ list.start + 1 := by
  intro heq
  have htwo := hlist.two_le hp hk
  rcases hx.laminar hp hlist with hin | hin | happ | happ
  · have hne : x ≠ list := by
      rintro rfl
      omega
    have := hlist.between hp hk hin hx.named hne
    omega
  · have := Node.covers (hx.neat hp) hin
    omega
  · omega
  · omega

/-- Elements that end together, one inside the other, are the same. -/
theorem eq_of_stop (hp : p.WellFormed) (hlist : p.HasNode file list) (hk : list.kind.isList = true)
    (hx : x ∈ list.codeChildren) (hy : p.HasNode file y) (hlt : x.start < x.stop)
    (hxy : x ∈ y.everything) (hstop : x.stop = y.stop) : x = y := by
  have hbetween := hlist.between_child hp hk hx
  have hcover := Node.covers (hy.neat hp) hxy
  rcases hlist.laminar hp hy with hin | hin | happ | happ
  · have := Node.covers (hy.neat hp) hin
    omega
  · -- the other one lies in an element of the list, which is the first one
    by_cases hyl : y = list
    · rw [hyl] at hstop
      omega
    obtain ⟨c, hc, hyc⟩ := Node.exists_codeChild (hlist.made hp) hin hy.named hyl
    have hcc := Node.covers ((hlist.child hc).neat hp) hyc
    cases hlist.eq_of_child hp hx hc hlt ⟨by omega, by omega⟩
    exact Node.eq_of_mem_everything hxy hyc
  · omega
  · omega

theorem eq_of_parents (hp : p.WellFormed) (hx : p.HasNode file x) (hy : p.HasNode file y) {c : Node}
    (hc : c ∈ x.codeChildren) (hc' : c ∈ y.codeChildren) (hlt : c.start < c.stop) : x = y := by
  have hbelow : ∀ {z : Node}, c ∈ z.codeChildren → c ∈ z.everything := fun hz =>
    Node.mem_everything.mpr (.inr ⟨c, (List.mem_filter.mp hz).1, c.self_mem_everything⟩)
  have hcover := Node.covers (hx.neat hp) (hbelow hc)
  have hcover' := Node.covers (hy.neat hp) (hbelow hc')
  -- what lies around the child in the outer parent is the child itself
  have hsame : ∀ {u v : Node}, p.HasNode file u → p.HasNode file v → c ∈ u.codeChildren →
      c ∈ v.codeChildren → u ∈ v.everything → u = v := by
    intro u v hu hv hcu hcv hin
    by_contra hne
    obtain ⟨d, hd, hud⟩ := Node.exists_codeChild (hv.made hp) hin hu.named hne
    have h₁ := Node.covers (hu.neat hp) (hbelow hcu)
    have h₂ := Node.covers ((hv.child hd).neat hp) hud
    cases hv.eq_of_child hp hcv hd hlt ⟨by omega, by omega⟩
    cases Node.eq_of_mem_everything (hbelow hcu) hud
    obtain ⟨k, r, a, b, cs⟩ := c
    exact Nat.lt_irrefl _ (Node.sizeOf_lt_of_mem (List.mem_filter.mp hcu).1)
  rcases hx.laminar hp hy with hin | hin | happ | happ
  · exact hsame hx hy hc hc' hin
  · exact (hsame hy hx hc' hc hin).symm
  · omega
  · omega

/-- The places of a list belong to no other list. -/
theorem eq_of_place (hp : p.WellFormed) (hlist : p.HasNode file list)
    (hlist' : p.HasNode file list')
    (hk : list.kind.isList = true) (hk' : list'.kind.isList = true) {offset : Nat}
    (h : list.HasPlace offset) (h' : list'.HasPlace offset) : list = list' := by
  have htwo := hlist.two_le hp hk
  have htwo' := hlist'.two_le hp hk'
  rcases h with rfl | ⟨x, hx, hlt, rfl⟩
  · rcases h' with heq | ⟨y, hy, hlt, heq⟩
    · -- both open there, and what lies in a list begins behind its opening
      by_contra hne
      rcases hlist.laminar hp hlist' with hin | hin | happ | happ
      · have := hlist'.between hp hk' hin hlist.named hne
        omega
      · have := hlist.between hp hk hin hlist'.named (Ne.symm hne)
        omega
      · omega
      · omega
    · exact absurd heq.symm ((hlist'.child hy).stop_ne_opening hp hlt hlist hk)
  · rcases h' with heq | ⟨y, hy, hlt', heq⟩
    · exact absurd heq ((hlist.child hx).stop_ne_opening hp hlt hlist' hk')
    · have hxy : x = y := by
        rcases (hlist.child hx).laminar hp (hlist'.child hy) with hin | hin | happ | happ
        · exact hlist.eq_of_stop hp hk hx (hlist'.child hy) hlt hin heq
        · exact (hlist'.eq_of_stop hp hk' hy (hlist.child hx) hlt' hin heq.symm).symm
        · omega
        · omega
      cases hxy
      exact hlist.eq_of_parents hp hlist' hx hy hlt

end Program.HasNode

end ParamThreading
