import ParamThreading.Proofs.RenderedTokens
import ParamThreading.Proofs.Tolerance

/-!
# Texts that differ

Every insertion of a request goes between two characters of its file, whatever else stands there, so
that the new text is the old one with the insertions in it and is longer by all of them.

* `Boundary`  an offset between two characters of a text;
* `Edits.spliced`  a text with insertions at such offsets;
* `Spliced.le`  how much longer it is;
* `Frontier.Proper.render_eq_iff`  a file is rendered as it is just if nothing is inserted into it.
-/

namespace ParamThreading

open Token

/-! ## between two characters -/

/-- The offset lies between two characters of the text, or at one of its ends. -/
def Boundary (text : String) (offset : Nat) : Prop :=
  ∃ pre post, text.toList = pre ++ post ∧ offset = width pre

theorem exists_of_width_le {as bs cs ds : List Char} (h : as ++ bs = cs ++ ds)
    (hle : width as ≤ width cs) : ∃ mid, cs = as ++ mid ∧ bs = mid ++ ds := by
  rcases List.append_eq_append_iff.mp h with ⟨mid, rfl, rfl⟩ | ⟨more, rfl, rfl⟩
  · exact ⟨mid, rfl, rfl⟩
  · have hmore : more = [] := by
      by_contra hne
      have hpos := width_pos hne
      rw [width_append] at hle
      omega
    subst hmore
    exact ⟨[], by simp, rfl⟩

/-- A text can be cut at an offset between two characters that is not before an earlier cut. -/
theorem Boundary.cut {text : String} {offset : Nat} {pre cs : List Char} (h : Boundary text offset)
    (htext : text.toList = pre ++ cs) (hle : width pre ≤ offset) :
    ∃ taken rest, cs = taken ++ rest ∧ offset = width pre + width taken := by
  obtain ⟨pre', post, htext', rfl⟩ := h
  obtain ⟨taken, rfl, rfl⟩ := exists_of_width_le (htext.symm.trans htext') hle
  exact ⟨taken, post, rfl, width_append pre taken⟩

theorem Token.LiesIn.boundary_stop {text : String} {t : Token} (h : LiesIn 0 text.toList t) :
    Boundary text t.stop := by
  obtain ⟨pre, mid, post, htext, hstart, -, hstop⟩ := h
  refine ⟨pre ++ mid, post, htext, ?_⟩
  rw [hstop, hstart, Nat.zero_add, width_append]

theorem Token.LiesIn.stop_of_text {pos : Nat} {cs : List Char} {t : Token} (h : LiesIn pos cs t)
    (htext : t.text = "(") : t.stop = t.start + 1 := by
  obtain ⟨pre, mid, post, -, -, hmid, hstop⟩ := h
  have hone : mid = ['('] := by simpa using congrArg String.toList (hmid.symm.trans htext)
  rw [hstop, hone]
  rfl

/-! ## texts with insertions -/

theorem Edits.spliced {text : String} {pre cs : List Char} {is : List Insertion}
    (htext : text.toList = pre ++ cs) (hsorted : is.Pairwise fun i j => i.offset ≤ j.offset)
    (his : ∀ i ∈ is, width pre ≤ i.offset ∧ Boundary text i.offset) :
    Spliced (width pre) cs is (splice text (width pre) is).toList := by
  induction is generalizing pre cs with
  | nil =>
    rw [splice, Node.slice_rest htext, String.toList_ofList]
    exact .rest
  | cons i is ih =>
    obtain ⟨hnext, hsorted⟩ := List.pairwise_cons.mp hsorted
    obtain ⟨hle, hboundary⟩ := his i List.mem_cons_self
    obtain ⟨taken, rest, rfl, hoffset⟩ := hboundary.cut htext hle
    have htext' : text.toList = pre ++ taken ++ rest := by rw [htext, List.append_assoc]
    have hrest := ih htext' hsorted fun j hj => by
      rw [width_append, ← hoffset]
      exact ⟨hnext j hj, (his j (List.mem_cons_of_mem _ hj)).2⟩
    rw [width_append, ← hoffset] at hrest
    rw [splice, String.toList_append, String.toList_append, List.append_assoc, hoffset,
      Node.slice_eq htext', String.toList_ofList, ← hoffset]
    exact .insertion hoffset hrest

theorem Spliced.le {pos : Nat} {cs out : List Char} {is : List Insertion}
    (h : Spliced pos cs is out)
    (his : ∀ i ∈ is, i.text ≠ "") : width cs + is.length ≤ width out := by
  induction h with
  | rest => exact Nat.le_refl _
  | @insertion pos taken cs out i is hoffset hrest ih =>
    obtain ⟨hi, his⟩ := List.forall_mem_cons.mp his
    have hpos : 0 < width i.text.toList := width_pos (by simpa using hi)
    have hle := ih his
    rw [width_append, width_append, width_append, List.length_cons]
    omega

/-! ## insertions of requests -/

theorem elementText_ne_empty (source : SourceFile) {item : String} (list : Node)
    (first : Option Node)
    (isOnly : Bool) (hitem : item ≠ "") : elementText source item list first isOnly ≠ "" := by
  unfold elementText
  split
  · exact hitem
  · split
    · split <;> simp
    · simp

section
variable {p : Program} {frontier : Frontier} {request : Request} {file : FileId} {list first : Node}

theorem Program.HasNode.boundary_opening (hp : p.WellFormed) (hlist : p.HasNode file list)
    (hk : list.kind.isList = true) : Boundary (p.file file).text (list.start + 1) := by
  obtain ⟨pre, t, post, htokens, -, htext, hstart, -⟩ :=
    Grammar.exists_opening (hlist.formed hp).self hk
  have hlies : LiesIn 0 (p.file file).text.toList t := scan_liesIn (by rw [htokens]; simp)
  rw [hstart, ← hlies.stop_of_text htext]
  exact hlies.boundary_stop

theorem Program.HasNode.boundary_first (hp : p.WellFormed) (hlist : p.HasNode file list)
    (hk : list.kind = .argumentList) (hfirst : list.codeChildren.head? = some first) :
    Boundary (p.file file).text first.stop := by
  obtain ⟨pre, u, t, post, htokens, hstop, -⟩ :=
    Grammar.exists_behind_first (hlist.formed hp).self hk hfirst
  have hlies : LiesIn 0 (p.file file).text.toList u := scan_liesIn (by rw [htokens]; simp)
  rw [hstop]
  exact hlies.boundary_stop

theorem Frontier.Proper.boundary (hp : p.WellFormed) (h : frontier.Proper p)
    (hname : request.name ≠ "") {t : Target} (ht : t ∈ p.targets frontier request) :
    Boundary (p.file t.file).text t.insertion.offset ∧ t.insertion.text ≠ "" := by
  obtain ⟨hsits, ⟨file, params, rfl⟩ | ⟨file, call, list, hk, rfl⟩⟩ := h.target_cases hp ht
  · exact ⟨hsits.node.boundary_opening hp hsits.isList, elementText_ne_empty _ _ _ _ (by simp)⟩
  · rcases p.argument_cases request.name file call list with
      ⟨hoffset, htext⟩ | ⟨first, hfirst, hoffset, htext⟩
    · have hboundary : Boundary (p.file file).text (list.start + 1) :=
        hsits.node.boundary_opening hp hsits.isList
      refine ⟨?_, fun hempty => elementText_ne_empty _ _ _ _ hname (htext.symm.trans hempty)⟩
      rwa [← hoffset] at hboundary
    · have hboundary := hsits.node.boundary_first hp hk hfirst
      refine ⟨?_, fun hempty => by simpa using htext.symm.trans hempty⟩
      rwa [← hoffset] at hboundary

/-- A file is rendered with its insertions in it and nothing else changed. -/
theorem Frontier.Proper.spliced (hp : p.WellFormed) (h : frontier.Proper p)
    (hname : request.name ≠ "") (file : FileId) :
    Spliced 0 (p.file file).text.toList
      (Edits.ordered ((apply p frontier request).edits.insertions file))
        ((apply p frontier request).edits.render p file).toList ∧
      ∀ i ∈ Edits.ordered ((apply p frontier request).edits.insertions file), i.text ≠ "" := by
  have hall : ∀ i ∈ Edits.ordered ((apply p frontier request).edits.insertions file),
      Boundary (p.file file).text i.offset ∧ i.text ≠ "" := by
    intro i hi
    rw [(Edits.ordered_perm _).mem_iff, h.insertions_eq hp] at hi
    obtain ⟨t, ht, rfl⟩ := List.mem_map.mp hi
    obtain ⟨hmem, -, rfl⟩ := Program.mem_due.mp ht
    exact h.boundary hp hname hmem
  refine ⟨?_, fun i hi => (hall i hi).2⟩
  have hwhole : (p.file file).text.toList = [] ++ (p.file file).text.toList := rfl
  exact Edits.spliced hwhole (Edits.pairwise_ordered _) fun i hi => ⟨Nat.zero_le _, (hall i hi).1⟩

theorem Frontier.Proper.render_eq_iff (hp : p.WellFormed) (h : frontier.Proper p)
    (hname : request.name ≠ "") (file : FileId) :
    (apply p frontier request).edits.render p file = (p.file file).text ↔
      (apply p frontier request).edits.insertions file = [] := by
  obtain ⟨hspliced, hne⟩ := h.spliced hp hname file
  refine ⟨fun heq => List.length_eq_zero_iff.mp ?_, Edits.render_of_nil⟩
  have hle := hspliced.le hne
  rw [heq] at hle
  rw [← (Edits.ordered_perm ((apply p frontier request).edits.insertions file)).length_eq]
  omega

end

end ParamThreading
