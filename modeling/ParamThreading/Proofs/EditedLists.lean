import ParamThreading.Proofs.FirstParameters
import ParamThreading.Proofs.NextTokens

/-!
# Lists after an edit

In Go a list has to go on behind each of its elements before the line ends, and its parameters are
all named or all unnamed. A new element brings a comma with it unless it is the only one or comes
behind a receiver; alone in a list it stands before whatever line break the list has. Its name is
put in whether the other parameters have names or not.

* `Change.Adds`  what a change inserts and where;
* `closesOnLine_receiver`, `closesOnLine_empty`  how the text goes on behind a new element without a
  comma;
* `Edits.naming`  which parameters of a list have names;
* `Change.applied_lists`  the list and the text after a change.
-/

namespace ParamThreading

open Token

/-! ## what changes insert -/

def Inserted.written : Inserted → String
  | .parameter name type => name ++ " " ++ type
  | .argument name => name

/-- An insertion puts its element in front of a list, or behind the first of the arguments of a
call. -/
inductive Insertion.Puts (p : Program) (e : Edits) (file : FileId) (list : Node) (i : Insertion) :
    Prop where
  | opening : i.offset = list.start + 1 →
      i.text = elementText (p.file file) i.inserted.written list list.codeChildren.head?
        (list.codeChildren.isEmpty && (e.leading? file (list.start + 1)).isNone) →
          Puts p e file list i
  | receiver {first : Node} : list.kind = .argumentList → list.codeChildren.head? = some first →
      i.offset = first.stop → i.text = ", " ++ i.inserted.written → Puts p e file list i

/-- The text of a new element: there is a comma behind the element unless it is the only one. -/
theorem elementText_cases (source : SourceFile) (item : String) (list : Node) (first : Option Node)
    (isOnly : Bool) : (isOnly = true ∧ elementText source item list first isOnly = item) ∨
      isOnly = false ∧ ∃ lead, ∃ tail ∈ [",", ", "],
        elementText source item list first isOnly = lead ++ item ++ tail := by
  cases isOnly with
  | true => exact .inl ⟨rfl, rfl⟩
  | false =>
    refine .inr ⟨rfl, ?_⟩
    have hline : ∃ lead, ∃ tail ∈ [",", ", "], item ++ ", " = lead ++ item ++ tail :=
      ⟨"", ", ", by simp, by simp⟩
    cases first with
    | none => exact hline
    | some f =>
      unfold elementText
      simp only [Bool.false_eq_true, if_false]
      split
      · exact ⟨"\n" ++ indentation source.text f.start, ",", by simp, rfl⟩
      · exact hline

namespace Change

variable {p : Program} {e : Edits} {c : Change} {cs : List Change} {x : FileId × Insertion}
    {file : FileId}
  {list : Node}

/-- The list to which a change adds an element; none at a node of a wrong kind. -/
def list? : Change → Option Node
  | parameter a _ _ _ => a.node?.filter (·.kind = .parameterList)
  | argument a _ _ => (a.node?.filter (·.kind = .callExpression)).bind (·.child? .arguments)

structure Adds (p : Program) (e : Edits) (c : Change) (x : FileId × Insertion) (list : Node) :
    Prop where
  file : x.1 = c.address.file
  listed : c.list? = some list
  node : p.HasNode x.1 list
  isList : list.kind.isList = true
  inserted : x.2.inserted = c.element
  puts : x.2.Puts p e x.1 list

theorem eq_of_mem_added {present : Bool} {i : Insertion}
    (h : c.make p e = .ok (if present then (.alreadyPresent, e) else (.applied, e.push file i)))
    (hx : x ∈ c.added p e) : x = (file, i) := by
  rw [added, after, h] at hx
  cases present with
  | true => simp at hx
  | false => simpa [Edits.push] using hx

theorem exists_adds (hp : p.WellFormed) (hc : c.address.In p) (hx : x ∈ c.added p e) :
    ∃ list, c.Adds p e x list := by
  obtain ⟨k, hplace, -⟩ := mem_added hx
  cases c with
  | parameter a name type skip =>
    obtain ⟨list, hlist, rfl⟩ := Option.map_eq_some_iff.mp hplace
    obtain ⟨hnode, hk⟩ := Option.filter_eq_some_iff.mp hlist
    have hk := of_decide_eq_true hk
    have hhas := hc.hasNode hp hnode (by rw [hk]; rfl) (by rw [hk]; decide)
    have hmake : make p e (.parameter a name type skip) =
        .ok (e.putParameter p a.file list name type skip) :=
          Edits.addParameter_eq hnode hk e name type skip
    unfold Edits.putParameter at hmake
    obtain rfl := eq_of_mem_added hmake hx
    exact ⟨list, rfl, hlist, hhas, by rw [hk]; rfl, rfl, .opening rfl rfl⟩
  | argument a name skip =>
    obtain ⟨call, hcall, hplace⟩ := Option.bind_eq_some_iff.mp hplace
    obtain ⟨list, hlist, rfl⟩ := Option.map_eq_some_iff.mp hplace
    obtain ⟨hnode, hk⟩ := Option.filter_eq_some_iff.mp hcall
    have hk := of_decide_eq_true hk
    have hhas := hc.hasNode hp hnode (by rw [hk]; rfl) (by rw [hk]; decide)
    obtain ⟨hmem, hargs⟩ := hhas.arguments hp hk hlist
    have hadds : ∀ {i}, x = (a.file, i) → i.inserted = .argument name → i.Puts p e a.file list →
        Adds p e (.argument a name skip) x list := by
      rintro i rfl hinserted hputs
      exact ⟨rfl, Option.bind_eq_some_iff.mpr ⟨call, hcall, hlist⟩,
        hhas.child hmem, by rw [hargs]; rfl, hinserted, hputs⟩
    have hmake :
        make p e (.argument a name skip) = .ok (e.putArgument p a.file call list name skip) :=
      Edits.addArgument_call hnode hk hlist name skip
    unfold Edits.putArgument at hmake
    cases hm : ((call.child? .function).bind (p.methodExpressionType? a.file)).isSome with
    | false =>
      rw [hm] at hmake
      exact ⟨list, hadds (eq_of_mem_added hmake hx) rfl (.opening rfl rfl)⟩
    | true =>
      rw [hm] at hmake
      cases hgiven : list.codeChildren with
      | nil =>
        rw [hgiven] at hmake
        exact ⟨list, hadds (eq_of_mem_added hmake hx) rfl (.opening rfl (by rw [hgiven]; rfl))⟩
      | cons first rest =>
        rw [hgiven] at hmake
        exact ⟨list,
          hadds (eq_of_mem_added hmake hx) rfl (.receiver hargs (by rw [hgiven]; rfl) rfl rfl)⟩

theorem Adds.exists_token (hp : p.WellFormed) (h : c.Adds p e x list) :
    ∃ t ∈ scan (p.file x.1).text, t.stop = x.2.offset := by
  cases h.puts with
  | opening hoffset htext =>
    obtain ⟨pre, t, post, htokens, -, htext, hstart, -⟩ :=
      Grammar.exists_opening (h.node.formed hp).self h.isList
    have hmem : t ∈ scan (p.file x.1).text := by rw [htokens]; simp
    exact ⟨t, hmem, by rw [hoffset, hstart, (scan_liesIn hmem).stop_of_text htext]⟩
  | receiver hk hfirst hoffset htext =>
    obtain ⟨pre, u, t, post, htokens, hstop, -⟩ :=
      Grammar.exists_behind_first (h.node.formed hp).self hk hfirst
    exact ⟨u, by rw [htokens]; simp, by rw [hoffset, hstop]⟩

theorem exists_adds_of_mem (hp : p.WellFormed) (hcs : ∀ c ∈ cs, c.address.In p) {i : Insertion}
    (hi : i ∈ (afterAll p .empty cs).insertions file) : ∃ c e list, Adds p e c (file, i) list := by
  obtain ⟨x, hmem, rfl⟩ := List.mem_map.mp hi
  obtain ⟨hentry, hfile⟩ := List.mem_filter.mp hmem
  cases beq_iff_eq.mp hfile
  rcases mem_afterAll hentry with hnone | ⟨c, hc, e, hadded⟩
  · cases hnone
  · obtain ⟨list, hadds⟩ := exists_adds hp (hcs c hc) hadded
    exact ⟨c, e, list, hadds⟩

theorem spliced_afterAll (hp : p.WellFormed) (hcs : ∀ c ∈ cs, c.address.In p) (file : FileId) :
    Spliced 0 (p.file file).text.toList (Edits.ordered ((afterAll p .empty cs).insertions file))
      ((afterAll p .empty cs).render p file).toList := by
  have hwhole : (p.file file).text.toList = [] ++ (p.file file).text.toList := rfl
  refine Edits.spliced hwhole (Edits.pairwise_ordered _) fun i hi => ⟨Nat.zero_le _, ?_⟩
  obtain ⟨c, e, list, hadds⟩ := exists_adds_of_mem hp hcs ((Edits.ordered_perm _).mem_iff.mp hi)
  obtain ⟨t, ht, hstop⟩ := hadds.exists_token hp
  have hboundary := (scan_liesIn ht).boundary_stop
  rwa [hstop] at hboundary

end Change

/-! ## how a list goes on -/

section
variable {p : Program} {cs : List Change} {file : FileId} {list first : Node}
    {behind : List Insertion}
  {taken rest ys : List Char}

/-- Behind a place where nothing is inserted the text goes on as it did, if a token comes next that
closes. -/
theorem closesOnLine_unfilled (hp : p.WellFormed) (hcs : ∀ c ∈ cs, c.address.In p)
    {pre post : List Token}
    {u t : Token} (htokens : scan (p.file file).text = pre ++ u :: t :: post) (ht : t.closes = true)
    (htext : (p.file file).text.toList = taken ++ rest) (hstop : u.stop = width taken)
    (h : Spliced u.stop rest behind ys)
    (hbehind : ∀ j ∈ behind, j ∈ (Change.afterAll p .empty cs).insertions file ∧
      u.stop < j.offset) :
    closesOnLine (.ofList ys) = closesOnLine (.ofList rest) := by
  refine closesOnLine_spliced htokens ht htext hstop h fun j hj => ?_
  obtain ⟨hmem, hlt⟩ := hbehind j hj
  obtain ⟨c, e, list, hadds⟩ := Change.exists_adds_of_mem hp hcs hmem
  obtain ⟨v, hv, hend⟩ := hadds.exists_token hp
  dsimp only at hv hend
  have hchained := scan_chained (p.file file).text
  rw [htokens] at hchained hv
  rcases hchained.stop_le_or hv with hle | hle <;> omega

theorem exists_comma (hp : p.WellFormed) (hcs : ∀ c ∈ cs, c.address.In p)
    (hlist : p.HasNode file list)
    (hk : list.kind = .argumentList) (hfirst : list.codeChildren.head? = some first) {i : Insertion}
    (hi : i ∈ (Change.afterAll p .empty cs).insertions file) (hoffset : i.offset = first.stop) :
    ∃ text, i.text = "," ++ text := by
  obtain ⟨c, e, list', hadds⟩ := Change.exists_adds_of_mem hp hcs hi
  cases hadds.puts with
  | opening hopening =>
    have hmem := List.mem_of_mem_head? hfirst
    have hne :=
      (hlist.child hmem).stop_ne_opening hp (hlist.filled hp hk hmem) hadds.node hadds.isList
    exact absurd (hoffset.symm.trans hopening) hne
  | receiver _ _ _ htext =>
    exact ⟨" " ++ i.inserted.written, by rw [htext, ← String.append_assoc]; rfl⟩

theorem closesOnLine_receiver (hp : p.WellFormed) (hcs : ∀ c ∈ cs, c.address.In p)
    (hlist : p.HasNode file list) (hk : list.kind = .argumentList)
    (hfirst : list.codeChildren.head? = some first)
    (htext : (p.file file).text.toList = taken ++ rest)
    (hstop : first.stop = width taken) (h : Spliced first.stop rest behind ys)
    (hsorted : behind.Pairwise fun i j => i.offset ≤ j.offset)
    (hbehind : ∀ j ∈ behind, j ∈ (Change.afterAll p .empty cs).insertions file ∧
      first.stop ≤ j.offset)
    (hcloses : closesOnLine (.ofList rest) = true) : closesOnLine (.ofList ys) = true := by
  by_cases hfilled : ∃ j ∈ behind, j.offset = first.stop
  · obtain ⟨j, hj, hoffset⟩ := hfilled
    generalize hplace : first.stop = place at h
    cases h with
    | rest => cases hj
    | @insertion _ more cs out i is hi hrest =>
      obtain ⟨hmem, hle⟩ := hbehind i List.mem_cons_self
      have hfront : i.offset = first.stop := by
        rcases List.mem_cons.mp hj with rfl | hj
        · exact hoffset
        · have := (List.pairwise_cons.mp hsorted).1 j hj
          omega
      obtain rfl : more = [] := by
        by_contra hne
        have hpos := width_pos hne
        omega
      obtain ⟨text, hcomma⟩ := exists_comma hp hcs hlist hk hfirst hmem hfront
      have hout : String.ofList ([] ++ (i.text.toList ++ out)) = "," ++ (text ++ .ofList out) := by
        simp [hcomma]
      rw [hout]
      exact closesOnLine_comma _
  · obtain ⟨pre, u, t, post, htokens, hu, hcls, hmark⟩ :=
      Grammar.exists_behind_first (hlist.formed hp).self hk hfirst
    rw [hu] at hstop h
    rw [closesOnLine_unfilled hp hcs htokens (closes_iff.mpr ⟨hcls, hmark⟩) htext hstop h, hcloses]
    intro j hj
    obtain ⟨hmem, hle⟩ := hbehind j hj
    have hne : j.offset ≠ first.stop := fun heq => hfilled ⟨j, hj, heq⟩
    exact ⟨hmem, by omega⟩

theorem closesOnLine_empty (hp : p.WellFormed) (hcs : ∀ c ∈ cs, c.address.In p)
    (hlist : p.HasNode file list) (hk : list.kind.isList = true) (hnone : list.codeChildren = [])
    (htext : (p.file file).text.toList = taken ++ rest) (hstop : list.start + 1 = width taken)
    (h : Spliced (list.start + 1) rest behind ys)
    (hbehind : ∀ j ∈ behind, j ∈ (Change.afterAll p .empty cs).insertions file ∧
      list.start + 1 < j.offset) :
    closesOnLine (.ofList ys) = closesOnLine (.ofList rest) := by
  obtain ⟨pre, u, post, htokens, -, hu, hstart, hnext⟩ :=
    Grammar.exists_opening (hlist.formed hp).self hk
  obtain ⟨t, post', rfl, hcls, hmark⟩ := hnext hnone
  have hend : u.stop = list.start + 1 := by
    rw [(scan_liesIn (by rw [htokens]; simp)).stop_of_text hu, hstart]
  rw [← hend] at hstop h hbehind
  exact closesOnLine_unfilled hp hcs htokens (closes_iff.mpr ⟨hcls, hmark⟩) htext hstop h hbehind

end

/-! ## lists after a change -/

/-- Every element of a list is followed by a comma or a closing parenthesis on its line. -/
def Node.IsLegal (text : String) (list : Node) : Prop :=
  ∀ x ∈ list.codeChildren, closesOnLine (Node.slice text x.stop text.utf8ByteSize) = true

def Inserted.hasName : Inserted → Bool
  | .parameter name _ => name != ""
  | .argument _ => false

/-- Which parameters of a list have names, from the first one on. -/
def Edits.naming (e : Edits) (file : FileId) (list : Node) : List Bool :=
  (e.insertionsAt file (list.start + 1)).reverse.map (·.inserted.hasName) ++
    list.codeChildren.map fun declaration => !(declaration.childrenIn .name).isEmpty

/-- All parameters have names, or none of them has. -/
def Uniform (naming : List Bool) : Prop := ∃ b, ∀ x ∈ naming, x = b

theorem uniform_cons {b : Bool} {naming : List Bool} :
    Uniform (b :: naming) ↔ ∀ x ∈ naming, x = b := by
  constructor
  · rintro ⟨b', h⟩ x hx
    rw [h x (List.mem_cons_of_mem _ hx), h b List.mem_cons_self]
  · exact fun h => ⟨b, List.forall_mem_cons.mpr ⟨rfl, h⟩⟩

theorem Edits.naming_push {e : Edits} {file : FileId} {list : Node} {i : Insertion}
    (hi : i.offset = list.start + 1) :
    (e.push file i).naming file list = i.inserted.hasName :: e.naming file list := by
  rw [naming, naming, ← hi, insertionsAt_push_self, List.reverse_append]
  rfl

theorem Edits.mem_insertionsAt {e : Edits} {file : FileId} {i : Insertion}
    (hi : i ∈ e.insertions file) : e.insertionsAt file i.offset ≠ [] :=
  List.ne_nil_of_mem (List.mem_filter.mpr ⟨hi, beq_self_eq_true _⟩)

/-- A new element is followed by a comma, unless it is alone or comes behind a receiver. -/
theorem Insertion.Puts.closesOnLine_iff {p : Program} (hp : p.WellFormed) {cs : List Change}
    (hcs : ∀ c ∈ cs, c.address.In p) {file : FileId} {list : Node} {i : Insertion}
    {taken rest ys : List Char} {behind : List Insertion}
    (h : i.Puts p (Change.afterAll p .empty cs) file list) (hlist : p.HasNode file list)
    (hk : list.kind.isList = true) (hlegal : list.IsLegal (p.file file).text)
    (htext : (p.file file).text.toList = taken ++ rest) (hoffset : i.offset = width taken)
    (hspliced : Spliced i.offset rest behind ys)
    (hsorted : behind.Pairwise fun i j => i.offset ≤ j.offset)
    (hbehind : ∀ j ∈ behind, j ∈ (Change.afterAll p .empty cs).insertions file ∧
      i.offset ≤ j.offset) :
    ∃ lead, ∃ tail ∈ ["", ",", ", "], i.text = lead ++ i.inserted.written ++ tail ∧
      (closesOnLine (tail ++ .ofList ys) = true ↔ list.codeChildren ≠ [] ∨
        (Change.afterAll p .empty cs).insertionsAt file i.offset ≠ [] ∨
        closesOnLine (.ofList rest) = true) := by
  cases h with
  | opening hopening helement =>
    rcases elementText_cases (p.file file) i.inserted.written list list.codeChildren.head?
      (list.codeChildren.isEmpty &&
        ((Change.afterAll p .empty cs).leading? file (list.start + 1)).isNone) with
      ⟨honly, hitem⟩ | ⟨hnot, lead, tail, htail, hitem⟩
    · obtain ⟨hnone, hleading⟩ := Bool.and_eq_true_iff.mp honly
      have hnone := List.isEmpty_iff.mp hnone
      have hfree : (Change.afterAll p .empty cs).insertionsAt file i.offset = [] := by
        rw [← hopening, Edits.leading?_eq] at hleading
        simpa using hleading
      refine ⟨"", "", by simp, by rw [helement, hitem]; simp, ?_⟩
      rw [hopening] at hoffset hspliced hbehind
      rw [String.empty_append, closesOnLine_empty hp hcs hlist hk hnone htext hoffset hspliced]
      · simp [hnone, hfree]
      · intro j hj
        obtain ⟨hmem, hle⟩ := hbehind j hj
        have hne : j.offset ≠ list.start + 1 := by
          intro heq
          have hsome := Edits.mem_insertionsAt hmem
          rw [heq, ← hopening] at hsome
          exact hsome hfree
        exact ⟨hmem, by omega⟩
    · refine ⟨lead, tail, List.mem_cons_of_mem _ htail, helement.trans hitem, iff_of_true ?_ ?_⟩
      · exact closesOnLine_tail htail _
      · rcases Bool.and_eq_false_iff.mp hnot with hsome | hsome
        · exact .inl (by simpa using hsome)
        · refine .inr (.inl ?_)
          rw [← hopening, Edits.leading?_eq] at hsome
          simpa using hsome
  | @receiver first hargs hfirst hstop helement =>
    refine ⟨", ", "", by simp, by rw [helement, String.append_empty], ?_⟩
    have hmem := List.mem_of_mem_head? hfirst
    have hcloses := hlegal first hmem
    rw [← hstop, hoffset, Node.slice_rest htext] at hcloses
    rw [hstop] at hoffset hspliced hbehind
    rw [String.empty_append]
    exact iff_of_true
      (closesOnLine_receiver hp hcs hlist hargs hfirst htext hoffset hspliced hsorted
        hbehind hcloses)
      (.inl (List.ne_nil_of_mem hmem))

namespace Change

variable {p : Program} {c : Change} {cs : List Change}

theorem after_eq {e : Edits} {file : FileId} {i : Insertion} (h : c.added p e = [(file, i)]) :
    c.after p e = e.push file i := by
  have hentries := (added_cases p e c).1
  rw [h] at hentries
  exact congrArg Edits.mk hentries

theorem exists_around (hp : p.WellFormed) (hcs : ∀ c ∈ cs, c.address.In p) (hc : c.address.In p)
    {file : FileId} {i : Insertion} (h : c.added p (afterAll p .empty cs) = [(file, i)]) :
    ∃ taken rest xs ys behind, (p.file file).text.toList = taken ++ rest ∧ i.offset = width taken ∧
      ((afterAll p .empty cs).render p file).toList = xs ++ ys ∧
      ((c.after p (afterAll p .empty cs)).render p file).toList = xs ++ (i.text.toList ++ ys) ∧
      width xs = i.offset +
        Edits.growth (((afterAll p .empty cs).insertions file).filter (·.offset < i.offset)) ∧
      Spliced i.offset rest behind ys ∧ (behind.Pairwise fun i j => i.offset ≤ j.offset) ∧
      ∀ j ∈ behind, j ∈ (afterAll p .empty cs).insertions file ∧ i.offset ≤ j.offset := by
  obtain ⟨before, behind, hold, hnew, hbefore, hbehind⟩ :=
    Edits.ordered_concat ((afterAll p .empty cs).insertions file) i
  have hinsertions : (afterAll p .empty (cs ++ [c])).insertions file =
      (afterAll p .empty cs).insertions file ++ [i] := by
    rw [afterAll_append, show afterAll p (afterAll p .empty cs) [c] = _ from after_eq h]
    simp [Edits.insertions, Edits.push]
  have hall : ∀ c' ∈ cs ++ [c], c'.address.In p := by
    simpa [or_imp, forall_and] using ⟨hcs, hc⟩
  have hafter := spliced_afterAll hp hall file
  rw [hinsertions, hnew] at hafter
  obtain ⟨taken, rest, xs, ys, htext, hoffset, hout, hwidth, hrest, hwithout⟩ := hafter.around
  have hrendered := spliced_afterAll hp hcs file
  have hsorted := Edits.pairwise_ordered ((afterAll p .empty cs).insertions file)
  have hmem : ∀ j ∈ behind, j ∈ (afterAll p .empty cs).insertions file := by
    intro j hj
    rw [← (Edits.ordered_perm _).mem_iff, hold]
    exact List.mem_append_right _ hj
  rw [hold] at hrendered hsorted
  rw [afterAll_append] at hout
  refine ⟨taken, rest, xs, ys, behind, htext, by omega, hrendered.unique hwithout, hout, ?_, hrest,
    (List.pairwise_append.mp hsorted).2.1, fun j hj => ⟨hmem j hj, hbehind j hj⟩⟩
  rw [Edits.growth_before hold hbefore hbehind]
  omega

/-- A parameter that is added makes a list of parameters uniform just if all of them have names as
it has one. A new element is put in at its place in the text, and the text goes on behind it with a
comma or a closing parenthesis on the line, unless it is the only element of its list and the list
breaks the line behind its opening. -/
theorem applied_lists (hloaded : p.Loaded) (hcs : ∀ c ∈ cs, c.address.In p) (hc : c.address.In p)
    {list : Node} (hlist : c.list? = some list) (hlegal : list.IsLegal (p.file c.address.file).text)
    (happlied : c.outcome p (afterAll p .empty cs) = .ok .applied) :
    let file := c.address.file
    let e := afterAll p .empty cs
    (∀ name type, c.element = .parameter name type →
      (c.after p e).naming file list = (name != "") :: e.naming file list ∧
      (Uniform ((c.after p e).naming file list) ↔ ∀ b ∈ e.naming file list, b = (name != ""))) ∧
    ∃ i front lead behind, ∃ tail ∈ ["", ",", ", "], c.added p e = [(file, i)] ∧
      i.text = lead ++ c.element.written ++ tail ∧ e.render p file = front ++ behind ∧
      (c.after p e).render p file = front ++ (lead ++ c.element.written ++ tail) ++ behind ∧
      front.utf8ByteSize = i.offset +
        Edits.growth ((e.insertions file).filter (·.offset < i.offset)) ∧
      (closesOnLine (tail ++ behind) = true ↔ list.codeChildren ≠ [] ∨
        e.insertionsAt file i.offset ≠ [] ∨
        closesOnLine (Node.slice (p.file file).text i.offset (p.file file).text.utf8ByteSize) =
          true) := by
  intro file e
  have hp := hloaded.wellFormed
  obtain ⟨-, ⟨hno, -⟩ | ⟨-, k, i, -, -, hadded⟩⟩ := added_cases p e c
  · exact absurd happlied hno
  obtain ⟨list', hadds⟩ := exists_adds hp hc (hadded ▸ List.mem_singleton_self (k.file, i))
  cases hlist.symm.trans hadds.listed
  have hfile : k.file = file := hadds.file
  have hinserted : i.inserted = c.element := hadds.inserted
  have hputs : i.Puts p e k.file list := hadds.puts
  have hnode : p.HasNode k.file list := hadds.node
  rw [hfile] at hadded hputs hnode
  constructor
  · intro name type helement
    have hopening : i.offset = list.start + 1 := by
      cases hputs with
      | opening hopening => exact hopening
      | receiver hargs =>
        cases c with
        | parameter a name' type' skip =>
          obtain ⟨-, hk⟩ := Option.filter_eq_some_iff.mp hlist
          rw [hargs] at hk
          cases hk
        | argument a name' skip => cases helement
    have hnaming : (e.push file i).naming file list = _ := Edits.naming_push hopening
    rw [hinserted, helement, ← after_eq hadded] at hnaming
    exact ⟨hnaming, by rw [hnaming, uniform_cons]; rfl⟩
  · obtain ⟨taken, rest, xs, ys, behind, htext, hoffset, hbefore, hafter, hwidth, hrest,
        hsorted, hbehind⟩ :=
      exists_around hp hcs hc hadded
    obtain ⟨lead, tail, htail, hitem, hcloses⟩ :=
      hputs.closesOnLine_iff hp hcs hnode hadds.isList hlegal htext hoffset hrest hsorted hbehind
    rw [hinserted] at hitem
    refine ⟨i, .ofList xs, lead, .ofList ys, tail, htail, hadded, hitem, ?_, ?_, ?_, ?_⟩
    · rw [← String.ofList_append, ← hbefore, String.ofList_toList]
    · rw [← hitem, ← String.toList_inj, hafter]
      simp
    · rw [← width_toList, String.toList_ofList, hwidth]
    · rw [hcloses, hoffset, Node.slice_rest htext]

def unnamedSources : List (Path × String) :=
  [(⟨"a.go"⟩, "package p\n\nfunc f(int) \x7b\x7d\n\nfunc g(\n) \x7b\x7d\n")]

def fooAt (list : Node) : Change := .parameter (.ofNode 0 list []) "foo" "int" false

/-- The unnamed parameter gets a named one in front. When the other list gets one after that, the
line ends behind it. -/
theorem applied_lists_unnamed :
    ∃ p list list', Program.ofSources (fun _ => none) unnamedSources = .ok p ∧
    (fooAt list).list? = some list ∧ list.IsLegal (p.file 0).text ∧
    (fooAt list).outcome p .empty = .ok .applied ∧
    Uniform (Edits.empty.naming 0 list) ∧
      ¬ Uniform ((afterAll p .empty [fooAt list]).naming 0 list) ∧
    (fooAt list').list? = some list' ∧ list'.IsLegal (p.file 0).text ∧
    (fooAt list').outcome p (afterAll p .empty [fooAt list]) = .ok .applied ∧
    ∃ front behind, (afterAll p .empty [fooAt list, fooAt list']).render p 0 =
      front ++ "foo int" ++ behind ∧ closesOnLine behind = false := by
  have hchecked : (Program.ofSources (fun _ => none) unnamedSources).toOption.any (fun p =>
      decide (0 < p.files.length) && (p.file 0).tree.everything.any fun list =>
        decide (list.kind = .parameterList) && decide (Edits.empty.naming 0 list = [false]) &&
        list.codeChildren.all (fun x =>
          closesOnLine (Node.slice (p.file 0).text x.stop (p.file 0).text.utf8ByteSize)) &&
        (p.file 0).tree.everything.any fun list' =>
          decide (list'.kind = .parameterList) && decide (list'.codeChildren = []) &&
          decide (list.start ≠ list'.start) &&
            closesOnLine (Node.slice (p.file 0).text (list'.start + 1)
            (p.file 0).text.utf8ByteSize) == false) = true := by
    decide +kernel
  obtain ⟨p, hp, hchecked⟩ := any_toOption.mp hchecked
  simp only [Bool.and_eq_true, List.any_eq_true, decide_eq_true_eq, List.all_eq_true, beq_iff_eq]
    at hchecked
  obtain ⟨hfiles, list, hmem, ⟨⟨hk, hnaming⟩, hlegal⟩, list', hmem', ⟨⟨hk', hnone⟩, hne⟩, hopen⟩ :=
    hchecked
  have hin : ∀ n ∈ (p.file 0).tree.everything, (fooAt n).address.In p := fun n hn =>
    ⟨hfiles, fun m hm => by cases hm; exact hn⟩
  have hlist : ∀ n : Node, n.kind = .parameterList → (fooAt n).list? = some n := fun n hn => by
    rw [fooAt, list?, Option.filter_eq_some_iff]
    exact ⟨rfl, decide_eq_true hn⟩
  have hplace : ∀ {n : Node} {k : Key}, n.kind = .parameterList → (fooAt n).place? p = some k →
      k = ⟨0, n.start + 1⟩ := fun {n k} hn hplace => by
    obtain ⟨m, hm, rfl⟩ := Option.map_eq_some_iff.mp hplace
    cases (hlist n hn).symm.trans hm
    rfl
  have happlied : ∀ e, ∀ n : Node, n.kind = .parameterList → (fooAt n).outcome p e = .ok .applied :=
    fun e n hn => by
      rw [fooAt, outcome, make, Edits.addParameter_eq rfl hn]
      rfl
  have hlegal' : list'.IsLegal (p.file 0).text := by
    rw [Node.IsLegal, hnone]
    exact List.forall_mem_nil _
  have hmixed :=
    ((applied_lists (.sources hp) (List.forall_mem_nil _) (hin list hmem) (hlist list hk) hlegal
    (happlied _ list hk)).1 "foo" "int" rfl).2
  obtain ⟨i, front, lead, behind, tail, -, hadded, -, -, hrender, -, hcloses⟩ :=
    (applied_lists (.sources hp)
    (List.forall_mem_singleton.mpr (hin list hmem)) (hin list' hmem') (hlist list' hk') hlegal'
    (happlied _ list' hk')).2
  have hoffset : i.offset = list'.start + 1 := by
    obtain ⟨k, hk, -, hoffset⟩ := mem_added (hadded ▸ List.mem_singleton_self _)
    rw [hplace hk' hk] at hoffset
    exact hoffset
  -- the first parameter went somewhere else
  have hfree : Edits.AgreeAt ⟨0, list'.start + 1⟩ (afterAll p .empty [fooAt list]) .empty := by
    refine agreeAt_after_of_ne fun hsame => hne ?_
    have hoffsets := congrArg Key.offset (hplace hk hsame)
    dsimp only at hoffsets
    omega
  refine ⟨p, list, list', hp, hlist list hk, hlegal, happlied _ list hk, ⟨false, by simp [hnaming]⟩,
    fun hboth => ?_, hlist list' hk', hlegal', happlied _ list' hk', front ++ lead,
      tail ++ behind, ?_, ?_⟩
  · exact absurd (hmixed.mp hboth false (hnaming ▸ List.mem_singleton_self _)) (by decide)
  · exact hrender.trans (by simp only [String.append_assoc]; rfl)
  · rw [← Bool.not_eq_true, hcloses, hoffset]
    rintro (hsome | hsome | hclosed)
    · exact hsome hnone
    · exact hsome hfree
    · exact absurd (hopen.symm.trans hclosed) (by decide)

end Change

end ParamThreading
