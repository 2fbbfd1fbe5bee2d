import ParamThreading.Proofs.InStep

/-!
# Edits at different nodes do not interfere

An edit looks at what was inserted at its place before, and at nothing else of the edits that were
made. Different nodes have different places, so an edit can be told from the earlier ones at its own
node, and edits at different nodes can be made in either order.

* `Change`  an edit that is asked for, `Change.make` what comes of it;
* `Change.make_cases`  a change fails, or it looks at its place and inserts there or not at all;
* `Change.place?_ne`  changes at different nodes have different places;
* `Edits.render_congr`  a rendered text depends on what is inserted at each place;
* `changes_independent`  sequences of changes.
-/

namespace ParamThreading

/-! ## insertions by place -/

namespace Edits

variable {e e' : Edits} {file : FileId} {offset : Nat}

theorem leading?_eq :
    e.leading? file offset = (e.insertionsAt file offset).getLast?.map (·.inserted) := by
  rw [insertionsAt, List.getLast?_filter]
  rfl

theorem insertionsAt_push_self (e : Edits) (file : FileId) (i : Insertion) :
    (e.push file i).insertionsAt file i.offset = e.insertionsAt file i.offset ++ [i] := by
  simp [insertionsAt, insertions, push]

theorem insertionsAt_push_of_ne {i : Insertion} {file' : FileId}
    (h : (⟨file, i.offset⟩ : Key) ≠ ⟨file', offset⟩) :
    (e.push file i).insertionsAt file' offset = e.insertionsAt file' offset := by
  by_cases hfile : file = file'
  · have hoffset : i.offset ≠ offset := fun hoffset => h (by rw [hfile, hoffset])
    simp [insertionsAt, insertions, push, hfile, hoffset]
  · simp [insertionsAt, insertions, push, hfile]

/-- The same is inserted at a place, in the same order. -/
def AgreeAt (k : Key) (e e' : Edits) : Prop :=
  e.insertionsAt k.file k.offset = e'.insertionsAt k.file k.offset

theorem AgreeAt.leading?_eq {k : Key} (h : AgreeAt k e e') :
    e.leading? k.file k.offset = e'.leading? k.file k.offset := by
  rw [Edits.leading?_eq, Edits.leading?_eq, h]

theorem AgreeAt.push {k : Key} (h : AgreeAt k e e') (file : FileId) (i : Insertion) :
    AgreeAt k (e.push file i) (e'.push file i) := by
  unfold AgreeAt at h ⊢
  by_cases hk : (⟨file, i.offset⟩ : Key) = k
  · cases hk
    rw [insertionsAt_push_self, insertionsAt_push_self, h]
  · rw [insertionsAt_push_of_ne hk, insertionsAt_push_of_ne hk, h]

/-! ## rendered texts -/

/-- Sorting keeps the insertions at one offset together, the one recorded last first. -/
theorem filter_ordered (is : List Insertion) (offset : Nat) :
    (ordered is).filter (·.offset == offset) = (is.filter (·.offset == offset)).reverse := by
  have hequal : (is.filter (·.offset == offset)).reverse.Pairwise
      fun i j => decide (i.offset ≤ j.offset) = true := by
    refine List.pairwise_of_forall_mem_list fun i hi j hj => ?_
    have h₁ := beq_iff_eq.mp (List.mem_filter.mp (List.mem_reverse.mp hi)).2
    have h₂ := beq_iff_eq.mp (List.mem_filter.mp (List.mem_reverse.mp hj)).2
    exact decide_eq_true (by omega)
  have hsub := (List.sublist_mergeSort offset_le_trans offset_le_total hequal
    (List.reverse_sublist.mpr List.filter_sublist)).filter (·.offset == offset)
  rw [List.filter_reverse, List.filter_filter] at hsub
  simp only [Bool.and_self] at hsub
  refine (hsub.eq_of_length ?_).symm
  rw [List.length_reverse]
  exact ((ordered_perm is).filter _).length_eq.symm

theorem mem_of_filter_offset {is js : List Insertion} {i : Insertion}
    (h : ∀ offset, is.filter (·.offset == offset) = js.filter (·.offset == offset)) (hi : i ∈ is) :
    i ∈ js := by
  have hmem : i ∈ is.filter (·.offset == i.offset) := List.mem_filter.mpr ⟨hi, by simp⟩
  rw [h] at hmem
  exact (List.mem_filter.mp hmem).1

/-- Insertions in the order of their offsets are known by those at each offset. -/
theorem eq_of_filter_offset {is js : List Insertion}
    (his : is.Pairwise fun i j => i.offset ≤ j.offset)
    (hjs : js.Pairwise fun i j => i.offset ≤ j.offset)
    (h : ∀ offset, is.filter (·.offset == offset) = js.filter (·.offset == offset)) : is = js := by
  induction is generalizing js with
  | nil =>
    cases js with
    | nil => rfl
    | cons j js =>
      exact absurd (mem_of_filter_offset (fun o => (h o).symm) List.mem_cons_self) (by simp)
  | cons i is ih =>
    cases js with
    | nil => exact absurd (mem_of_filter_offset h List.mem_cons_self) (by simp)
    | cons j js =>
      obtain ⟨hi, his'⟩ := List.pairwise_cons.mp his
      obtain ⟨hj, hjs'⟩ := List.pairwise_cons.mp hjs
      -- both lists begin at the least offset
      have hle : i.offset ≤ j.offset := by
        rcases List.mem_cons.mp (mem_of_filter_offset (fun o => (h o).symm) List.mem_cons_self)
          with heq | hj
        · rw [heq]
        · exact hi j hj
      have hge : j.offset ≤ i.offset := by
        rcases List.mem_cons.mp (mem_of_filter_offset h List.mem_cons_self) with heq | hi
        · rw [heq]
        · exact hj i hi
      have hoffset : j.offset = i.offset := by omega
      have hfirst := h i.offset
      rw [List.filter_cons_of_pos (by simp), List.filter_cons_of_pos (by simp [hoffset])] at hfirst
      obtain ⟨rfl, -⟩ := List.cons.inj hfirst
      refine congrArg (i :: ·) (ih his' hjs' fun offset => ?_)
      have hboth := h offset
      rw [List.filter_cons, List.filter_cons] at hboth
      split at hboth
      · exact (List.cons.inj hboth).2
      · exact hboth

/-- The text of a file depends on what is inserted at each of its offsets. -/
theorem render_congr {p : Program} (h : ∀ offset, AgreeAt ⟨file, offset⟩ e e') :
    e.render p file = e'.render p file := by
  have hordered : ordered (e.insertions file) = ordered (e'.insertions file) := by
    refine eq_of_filter_offset (pairwise_ordered _) (pairwise_ordered _) fun offset => ?_
    rw [filter_ordered, filter_ordered]
    exact congrArg List.reverse (h offset)
  rw [render, render, hordered]

def record (e : Edits) (file : FileId) : Option Insertion → Outcome × Edits
  | some i => (.applied, e.push file i)
  | none => (.alreadyPresent, e)

end Edits

/-! ## changes -/

/-- A parameter or an argument that is to be added at an address. -/
inductive Change where
  | parameter (address : Address) (name type : String) (skipIfPresent : Bool)
  | argument (address : Address) (name : String) (skipIfPresent : Bool)

namespace Change

def address : Change → Address
  | parameter a _ _ _ => a
  | argument a _ _ => a

def make (p : Program) (e : Edits) : Change → Except Failure (Outcome × Edits)
  | parameter a name type skip => e.addParameter p a name type skip
  | argument a name skip => e.addArgument p a name skip

def outcome (p : Program) (e : Edits) (c : Change) : Except Failure Outcome :=
  (c.make p e).map (·.1)

/-- The edits after a change; a change that fails makes none. -/
def after (p : Program) (e : Edits) (c : Change) : Edits :=
  match c.make p e with
  | .ok (_, e') => e'
  | .error _ => e

def afterAll (p : Program) (e : Edits) (cs : List Change) : Edits :=
  cs.foldl (after p) e

def added (p : Program) (e : Edits) (c : Change) : List (FileId × Insertion) :=
  (c.after p e).entries.drop e.entries.length

def outcomes (p : Program) : Edits → List Change → List (Except Failure Outcome)
  | _, [] => []
  | e, c :: cs => c.outcome p e :: outcomes p (c.after p e) cs

def SameNode (c c' : Change) : Prop :=
  c.address.file = c'.address.file ∧ c.address.node? = c'.address.node?

/-- The place of a change; none at a node of a wrong kind. -/
def place? (p : Program) : Change → Option Key
  | parameter a _ _ _ =>
    (a.node?.filter (·.kind = .parameterList)).map fun list => ⟨a.file, list.start + 1⟩
  | argument a _ _ => (a.node?.filter (·.kind = .callExpression)).bind fun call =>
    (call.child? .arguments).map fun list => ⟨a.file, (p.argumentPlace a.file call list).1⟩

end Change

/-! ## what a change looks at -/

namespace Edits

variable {p : Program} {file : FileId} {call list : Node} {name type : String}
    {skip : Bool} {k : Key}

/-- What is read off edits depends only on what comes first at a place. -/
def ReadsOnly {α : Type} (k : Key) (f : Edits → α) : Prop :=
  ∀ e e' : Edits, e.leading? k.file k.offset = e'.leading? k.file k.offset → f e = f e'

/-- An edit looks at what comes first at its place, and inserts there or not at all. -/
def Watches (edit : Edits → Outcome × Edits) (k : Key) : Prop :=
  ∃ choice : Edits → Option Insertion, ReadsOnly k choice ∧
    (∀ e i, choice e = some i → i.offset = k.offset) ∧ ∀ e, edit e = e.record k.file (choice e)

theorem watches_of_eq {edit : Edits → Outcome × Edits} {present : Edits → Bool}
    {text : Edits → String}
    {element : Inserted} (hpresent : ReadsOnly k present) (htext : ReadsOnly k text)
    (h : ∀ e, edit e = if skip && present e then (.alreadyPresent, e)
      else (.applied, e.push k.file ⟨k.offset, element, text e⟩)) : Watches edit k := by
  refine ⟨fun e => if skip && present e then none else some ⟨k.offset, element, text e⟩,
    fun e e' hlead => ?_, fun e i hi => ?_, fun e => ?_⟩
  · simp only [hpresent e e' hlead, htext e e' hlead]
  · obtain ⟨-, hi⟩ := Option.ite_none_left_eq_some.mp hi
    cases hi
    rfl
  · rw [h]
    by_cases hskip : (skip && present e) = true
    · simp only [if_pos hskip, record]
    · simp only [if_neg hskip, record]

theorem readsOnly_hasParameter {text : String} {declared : List Node} :
    ReadsOnly k fun e => e.hasParameter text k.file k.offset declared name type := by
  intro e e' hlead
  simp only [hasParameter, hlead]

theorem readsOnly_hasArgument {text : String} {given : Option Node} :
    ReadsOnly k fun e => e.hasArgument text k.file k.offset given name := by
  intro e e' hlead
  simp only [hasArgument, hlead]

theorem readsOnly_const {α : Type} (x : α) : ReadsOnly k fun _ => x := fun _ _ _ => rfl

theorem readsOnly_elementText {source : SourceFile} {item : String} {first : Option Node}
    {isEmpty : Bool} : ReadsOnly k fun e => elementText source item list first
      (isEmpty && (e.leading? k.file k.offset).isNone) := by
  intro e e' hlead
  simp only [hlead]

theorem watches_putParameter :
    Watches (fun e => e.putParameter p file list name type skip) ⟨file, list.start + 1⟩ :=
  watches_of_eq readsOnly_hasParameter readsOnly_elementText fun _ => rfl

theorem watches_putArgument : Watches (fun e => e.putArgument p file call list name skip)
    ⟨file, (p.argumentPlace file call list).1⟩ := by
  unfold putArgument Program.argumentPlace
  cases ((call.child? .function).bind (p.methodExpressionType? file)).isSome with
  | false => exact watches_of_eq readsOnly_hasArgument readsOnly_elementText fun _ => rfl
  | true =>
    cases list.codeChildren with
    | nil => exact watches_of_eq readsOnly_hasArgument readsOnly_elementText fun _ => rfl
    | cons receiver rest =>
      exact watches_of_eq readsOnly_hasArgument (readsOnly_const (", " ++ name)) fun _ => rfl

end Edits

theorem Address.expectKind_cases (p : Program) (a : Address) (kind : Kind) :
    (∃ n, a.node?.filter (·.kind = kind) = some n ∧ a.expectKind p kind = .ok n) ∨
      a.node?.filter (·.kind = kind) = none ∧
        ∃ found, a.expectKind p kind = .error (.wrongKind kind found (a.location p)) := by
  unfold expectKind
  cases a.node? with
  | none => exact .inr ⟨rfl, none, rfl⟩
  | some n =>
    by_cases hk : n.kind = kind
    · exact .inl ⟨n, by simp [Option.filter, hk], by simp [hk]⟩
    · exact .inr ⟨by simp [Option.filter, hk], some n.kind, by simp [hk]⟩

namespace Change

variable {p : Program} {e e' : Edits} {c c' : Change} {k : Key}

/-- A change fails whatever was edited before, since its node is of a wrong kind, or it looks at its
place. -/
theorem make_cases (p : Program) (c : Change) :
    (c.place? p = none ∧ ∃ expected found, ∀ e, c.make p e =
      .error (.wrongKind expected found (c.address.location p))) ∨
    ∃ k edit, c.place? p = some k ∧ Edits.Watches edit k ∧ ∀ e, c.make p e = .ok (edit e) := by
  cases c with
  | parameter a name type skip =>
    rcases a.expectKind_cases p .parameterList with ⟨list, hnode, hkind⟩ | ⟨hnode, found, hkind⟩
    · refine .inr ⟨⟨a.file, list.start + 1⟩, fun e => e.putParameter p a.file list name type skip,
        by simp [place?, hnode], Edits.watches_putParameter, fun e => ?_⟩
      exact bind_eq_ok.mpr ⟨list, hkind, rfl⟩
    · refine .inl ⟨by simp [place?, hnode], .parameterList, found, fun e => ?_⟩
      rw [make, Edits.addParameter, hkind]
      rfl
  | argument a name skip =>
    rcases a.expectKind_cases p .callExpression with ⟨call, hnode, hkind⟩ | ⟨hnode, found, hkind⟩
    · cases hlist : call.child? .arguments with
      | none =>
        refine .inl ⟨by simp [place?, hnode, hlist], .callExpression, some call.kind, fun e => ?_⟩
        simp only [make, Edits.addArgument, hkind, bind, Except.bind, hlist]
        rfl
      | some list =>
        refine .inr ⟨⟨a.file, (p.argumentPlace a.file call list).1⟩,
          fun e => e.putArgument p a.file call list name skip, by simp [place?, hnode, hlist],
          Edits.watches_putArgument, fun e => ?_⟩
        refine bind_eq_ok.mpr ⟨call, hkind, ?_⟩
        rw [hlist]
        rfl
    · refine .inl ⟨by simp [place?, hnode], .callExpression, found, fun e => ?_⟩
      rw [make, Edits.addArgument, hkind]
      rfl

/-! ## one change -/

theorem agreeAt_after_of_ne (h : c.place? p ≠ some k) : Edits.AgreeAt k (c.after p e) e := by
  rcases make_cases p c with ⟨-, expected, found, hmake⟩ |
    ⟨k', edit, hplace, ⟨choice, -, hoffset, hedit⟩, hmake⟩
  · rw [after, hmake]
    rfl
  · rw [after, hmake, hedit]
    cases hchoice : choice e with
    | none => rfl
    | some i =>
      refine Edits.insertionsAt_push_of_ne fun hk => h ?_
      rw [hoffset e i hchoice] at hk
      exact hplace.trans (congrArg some hk)

/-- A change keeps edits in agreement, at its own place too. -/
theorem agreeAt_after (h : Edits.AgreeAt k e e') :
    Edits.AgreeAt k (c.after p e) (c.after p e') := by
  by_cases hc : c.place? p = some k
  · rcases make_cases p c with ⟨hnone, -⟩ | ⟨k', edit, hplace, ⟨choice, hreads, -, hedit⟩, hmake⟩
    · rw [hnone] at hc
      cases hc
    · cases hplace.symm.trans hc
      rw [after, after, hmake, hmake, hedit, hedit, hreads e e' h.leading?_eq]
      cases choice e' with
      | none => exact h
      | some i => exact h.push k.file i
  · exact (agreeAt_after_of_ne hc).trans (h.trans (agreeAt_after_of_ne hc).symm)

theorem outcome_congr (h : ∀ k, c.place? p = some k → Edits.AgreeAt k e e') :
    c.outcome p e = c.outcome p e' := by
  rcases make_cases p c with ⟨-, expected, found, hmake⟩ |
    ⟨k, edit, hplace, ⟨choice, hreads, -, hedit⟩, hmake⟩
  · rw [outcome, outcome, hmake, hmake]
  · rw [outcome, outcome, hmake, hmake, hedit, hedit, hreads e e' (h k hplace).leading?_eq]
    cases choice e' <;> rfl

/-- A change that is applied records an insertion at its place, and no other change records any. -/
theorem added_cases (p : Program) (e : Edits) (c : Change) :
    (c.after p e).entries = e.entries ++ c.added p e ∧
      (c.outcome p e ≠ .ok .applied ∧ c.added p e = [] ∨
        c.outcome p e = .ok .applied ∧ ∃ k i, c.place? p = some k ∧ i.offset = k.offset ∧
          c.added p e = [(k.file, i)]) := by
  rcases make_cases p c with ⟨-, expected, found, hmake⟩ |
    ⟨k, edit, hplace, ⟨choice, -, hoffset, hedit⟩, hmake⟩
  · rw [added, after, outcome, hmake]
    simp [Except.map]
  · rw [added, after, outcome, hmake, hedit]
    cases hchoice : choice e with
    | none => simp [Edits.record, Except.map]
    | some i =>
      refine ⟨by simp [Edits.record, Edits.push], .inr ⟨rfl, k, i, hplace, hoffset e i hchoice, ?_⟩⟩
      simp [Edits.record, Edits.push]

theorem mem_added {x : FileId × Insertion} (hx : x ∈ c.added p e) :
    ∃ k, c.place? p = some k ∧ x.1 = k.file ∧ x.2.offset = k.offset := by
  obtain ⟨-, ⟨-, hnil⟩ | ⟨-, k, i, hplace, hoffset, hone⟩⟩ := added_cases p e c
  · rw [hnil] at hx
    cases hx
  · rw [hone, List.mem_singleton] at hx
    subst hx
    exact ⟨k, hplace, rfl, hoffset⟩

theorem agreeAt_swap (h : ∀ k, c.place? p = some k → c'.place? p ≠ some k) (e : Edits) (k : Key) :
    Edits.AgreeAt k (c'.after p (c.after p e)) (c.after p (c'.after p e)) := by
  by_cases hc : c.place? p = some k
  · have hc' := h k hc
    exact (agreeAt_after_of_ne hc').trans (agreeAt_after (agreeAt_after_of_ne hc')).symm
  · exact (agreeAt_after (agreeAt_after_of_ne hc)).trans (agreeAt_after_of_ne hc).symm

/-! ## changes one after the other -/

theorem afterAll_append (p : Program) (e : Edits) (cs cs' : List Change) :
    afterAll p e (cs ++ cs') = afterAll p (afterAll p e cs) cs' :=
  List.foldl_append

theorem mem_afterAll {cs : List Change} {x : FileId × Insertion}
    (hx : x ∈ (afterAll p e cs).entries) : x ∈ e.entries ∨ ∃ c ∈ cs, ∃ e', x ∈ c.added p e' := by
  induction cs generalizing e with
  | nil => exact .inl hx
  | cons c cs ih =>
    rcases ih hx with hx | ⟨c', hc', hx⟩
    · rw [(added_cases p e c).1] at hx
      rcases List.mem_append.mp hx with hx | hx
      · exact .inl hx
      · exact .inr ⟨c, List.mem_cons_self, e, hx⟩
    · exact .inr ⟨c', List.mem_cons_of_mem _ hc', hx⟩

theorem outcomes_append (p : Program) (e : Edits) (cs cs' : List Change) :
    outcomes p e (cs ++ cs') = outcomes p e cs ++ outcomes p (afterAll p e cs) cs' := by
  induction cs generalizing e with
  | nil => rfl
  | cons c cs ih =>
    rw [List.cons_append, outcomes, ih]
    rfl

theorem length_outcomes (p : Program) (e : Edits) (cs : List Change) :
    (outcomes p e cs).length = cs.length := by
  induction cs generalizing e with
  | nil => rfl
  | cons c cs ih => rw [outcomes, List.length_cons, ih, List.length_cons]

/-- At a place, changes elsewhere can be left out. -/
theorem agreeAt_afterAll_filter {keep : Change → Bool} {cs : List Change}
    (hkeep : ∀ c ∈ cs, keep c = false → c.place? p ≠ some k) (h : Edits.AgreeAt k e e') :
    Edits.AgreeAt k (afterAll p e cs) (afterAll p e' (cs.filter keep)) := by
  induction cs generalizing e e' with
  | nil => exact h
  | cons c cs ih =>
    have hrest := fun c hc => hkeep c (List.mem_cons_of_mem _ hc)
    cases hc : keep c with
    | true =>
      rw [List.filter_cons_of_pos hc]
      exact ih hrest (agreeAt_after h)
    | false =>
      rw [List.filter_cons_of_neg (by rw [hc]; exact Bool.false_ne_true)]
      exact ih hrest ((agreeAt_after_of_ne (hkeep c List.mem_cons_self hc)).trans h)

theorem outcomes_congr {cs : List Change} (h : ∀ k, Edits.AgreeAt k e e') :
    outcomes p e cs = outcomes p e' cs ∧
      ∀ k, Edits.AgreeAt k (afterAll p e cs) (afterAll p e' cs) := by
  induction cs generalizing e e' with
  | nil => exact ⟨rfl, h⟩
  | cons c cs ih =>
    obtain ⟨houtcomes, hagree⟩ := @ih (c.after p e) (c.after p e') fun k => agreeAt_after (h k)
    refine ⟨?_, hagree⟩
    rw [outcomes, outcomes, houtcomes, outcome_congr fun k _ => h k]

end Change

/-! ## places of nodes -/

/-- An address in one of the files of a program. -/
structure Address.In (a : Address) (p : Program) : Prop where
  loaded : a.file < p.files.length
  inner : ∀ n, a.node? = some n → n ∈ (p.file a.file).tree.everything

theorem Grammar.kind_of_parse {text : String} {root : Node} (h : parse text = some root) :
    root.kind = .sourceFile := by
  unfold parse treeOf at h
  split at h
  · split at h
    · cases h
      rfl
    · cases h
  · cases h

/-- The innermost node of an address lies below the top, unless it is the root of the file. -/
theorem Address.In.hasNode {p : Program} {a : Address} {n : Node} (hp : p.WellFormed) (ha : a.In p)
    (hn : a.node? = some n) (hnamed : n.kind.isNamed = true) (hne : n.kind ≠ .sourceFile) :
    p.HasNode a.file n := by
  refine ⟨ha.loaded, ?_, hnamed⟩
  rcases Node.mem_everything.mp (ha.inner n hn) with rfl | hbelow
  · exact absurd (Grammar.kind_of_parse (hp.parsed _ (Program.file_mem ha.loaded))) hne
  · exact hbelow

theorem Program.HasNode.arguments {p : Program} {file : FileId} {call list : Node}
    (hp : p.WellFormed) (h : p.HasNode file call) (hk : call.kind = .callExpression)
    (hlist : call.child? .arguments = some list) :
    list ∈ call.codeChildren ∧ list.kind = .argumentList := by
  obtain ⟨f, list', hshape⟩ := Grammar.callShape (h.made hp).self hk
  cases hlist.symm.trans hshape.child_arguments
  refine ⟨List.mem_filter.mpr ⟨List.mem_of_find?_eq_some hlist, ?_⟩, hshape.list⟩
  rw [hshape.list]
  rfl

namespace Change

variable {p : Program} {c c' : Change} {k : Key}

/-- The list to which the place of a change belongs, and how the node of the change is known by it.
-/
structure PlacedIn (p : Program) (c : Change) (k : Key) (list : Node) : Prop where
  file : k.file = c.address.file
  node : p.HasNode k.file list
  isList : list.kind.isList = true
  place : list.HasPlace k.offset
  known : (list.kind = .parameterList ∧ c.address.node? = some list) ∨
    list.kind = .argumentList ∧ ∃ call, p.HasNode k.file call ∧ c.address.node? = some call ∧
      list ∈ call.codeChildren

theorem exists_placedIn (hp : p.WellFormed) (hc : c.address.In p) (h : c.place? p = some k) :
    ∃ list, c.PlacedIn p k list := by
  cases c with
  | parameter a name type skip =>
    obtain ⟨list, hlist, rfl⟩ := Option.map_eq_some_iff.mp h
    obtain ⟨hnode, hkind⟩ := Option.filter_eq_some_iff.mp hlist
    have hkind := of_decide_eq_true hkind
    have hlist := hc.hasNode hp hnode (by rw [hkind]; rfl) (by rw [hkind]; decide)
    exact ⟨list, rfl, hlist, by rw [hkind]; rfl, .inl rfl, .inl ⟨hkind, hnode⟩⟩
  | argument a name skip =>
    obtain ⟨call, hcall, h⟩ := Option.bind_eq_some_iff.mp h
    obtain ⟨list, hlist, rfl⟩ := Option.map_eq_some_iff.mp h
    obtain ⟨hnode, hkind⟩ := Option.filter_eq_some_iff.mp hcall
    have hkind := of_decide_eq_true hkind
    have hcall := hc.hasNode hp hnode (by rw [hkind]; rfl) (by rw [hkind]; decide)
    obtain ⟨hmem, hargs⟩ := hcall.arguments hp hkind hlist
    have hchild := hcall.child hmem
    exact ⟨list, rfl, hchild, by rw [hargs]; rfl, Program.hasPlace_argument hp hchild hargs,
      .inr ⟨hargs, call, hcall, hnode, hmem⟩⟩

theorem place?_ne (hp : p.WellFormed) (hc : c.address.In p) (hc' : c'.address.In p)
    (hne : ¬ c.SameNode c') (h : c.place? p = some k) : c'.place? p ≠ some k := by
  intro h'
  obtain ⟨list, hin⟩ := exists_placedIn hp hc h
  obtain ⟨list', hin'⟩ := exists_placedIn hp hc' h'
  cases hin.node.eq_of_place hp hin'.node hin.isList hin'.isList hin.place hin'.place
  refine hne ⟨hin.file.symm.trans hin'.file, ?_⟩
  rcases hin.known with ⟨hk, hnode⟩ | ⟨hk, call, hcall, hnode, hmem⟩
  · rcases hin'.known with ⟨-, hnode'⟩ | ⟨hk', -⟩
    · rw [hnode, hnode']
    · rw [hk] at hk'
      cases hk'
  · rcases hin'.known with ⟨hk', -⟩ | ⟨-, call', hcall', hnode', hmem'⟩
    · rw [hk] at hk'
      cases hk'
    · have htwo := hin.node.two_le hp hin.isList
      rw [hnode, hnode', hcall.eq_of_parents hp hcall' hmem hmem' (by omega)]

end Change

/-! ## sequences of changes -/

namespace Change

variable {p : Program} {c c' : Change}

theorem added_apart (hp : p.WellFormed) (hc : c.address.In p) (hc' : c'.address.In p)
    (hne : ¬ c.SameNode c') {e e' : Edits} {x x' : FileId × Insertion} (hx : x ∈ c.added p e)
    (hx' : x' ∈ c'.added p e') : (x.1, x.2.offset) ≠ (x'.1, x'.2.offset) := by
  obtain ⟨k, hplace, hfile, hoffset⟩ := mem_added hx
  obtain ⟨k', hplace', hfile', hoffset'⟩ := mem_added hx'
  intro heq
  rw [hfile, hfile', hoffset, hoffset'] at heq
  obtain ⟨hfiles, hoffsets⟩ := Prod.mk.inj heq
  have hk : k' = k := by
    cases k
    cases k'
    cases hfiles
    cases hoffsets
    rfl
  exact place?_ne hp hc hc' hne hplace (hplace'.trans (congrArg some hk))

open scoped Classical in
theorem outcome_eq_filter (hp : p.WellFormed) (hc : c.address.In p) {before : List Change}
    (hbefore : ∀ c' ∈ before, c'.address.In p) (e : Edits) :
    c.outcome p (afterAll p e before) =
      c.outcome p (afterAll p e (before.filter fun c' => c'.SameNode c)) := by
  refine outcome_congr fun k hk => agreeAt_afterAll_filter (fun c' hc' hkeep => ?_) rfl
  have hne : ¬ c.SameNode c' := fun hsame => of_decide_eq_false hkeep ⟨hsame.1.symm, hsame.2.symm⟩
  exact place?_ne hp hc (hbefore c' hc') hne hk

theorem outcomes_swap (h : ∀ k, c.place? p = some k → c'.place? p ≠ some k) (e : Edits)
    (cs : List Change) : ∃ o o' os, outcomes p e (c :: c' :: cs) = o :: o' :: os ∧
      outcomes p e (c' :: c :: cs) = o' :: o :: os ∧
      ∀ k, Edits.AgreeAt k (afterAll p e (c :: c' :: cs)) (afterAll p e (c' :: c :: cs)) := by
  have hfirst : c.outcome p (c'.after p e) = c.outcome p e :=
    outcome_congr fun k hk => agreeAt_after_of_ne (h k hk)
  have hsecond : c'.outcome p (c.after p e) = c'.outcome p e :=
    outcome_congr fun k hk => agreeAt_after_of_ne fun hk' => h k hk' hk
  obtain ⟨hrest, hagree⟩ := @outcomes_congr p _ _ cs (agreeAt_swap h e)
  refine ⟨c.outcome p e, c'.outcome p e, outcomes p (c'.after p (c.after p e)) cs, ?_, ?_, hagree⟩
  · rw [outcomes, outcomes, hsecond]
  · rw [outcomes, outcomes, hfirst, hrest]

end Change

open Change in
open scoped Classical in
/-- Of changes to nodes of a program, each records at most one insertion, and those at different
nodes record them at different places. What comes of a change depends only on the earlier ones at
its node. Neighbours at different nodes can be swapped: all outcomes and all texts stay the same. -/
theorem changes_independent {p : Program} (hloaded : p.Loaded) {cs : List Change}
    (hcs : ∀ c ∈ cs, c.address.In p) :
    (∀ c ∈ cs, ∀ e, (c.after p e).entries = e.entries ++ c.added p e ∧ (c.added p e).length ≤ 1 ∧
      (c.added p e ≠ [] ↔ c.outcome p e = .ok .applied)) ∧
    (∀ c ∈ cs, ∀ c' ∈ cs, ¬ c.SameNode c' → ∀ e e', ∀ x ∈ c.added p e, ∀ x' ∈ c'.added p e',
      (x.1, x.2.offset) ≠ (x'.1, x'.2.offset)) ∧
    (∀ before c after, cs = before ++ c :: after → c.outcome p (afterAll p .empty before) =
      c.outcome p (afterAll p .empty (before.filter fun c' => c'.SameNode c))) ∧
    ∀ before c c' after, cs = before ++ c :: c' :: after → ¬ c.SameNode c' →
      (∃ os o o' os', os.length = before.length ∧ outcomes p .empty cs = os ++ o :: o' :: os' ∧
        outcomes p .empty (before ++ c' :: c :: after) = os ++ o' :: o :: os') ∧
      ∀ file, (afterAll p .empty cs).render p file =
        (afterAll p .empty (before ++ c' :: c :: after)).render p file := by
  have hp := hloaded.wellFormed
  refine ⟨fun c _ e => ?_, fun c hc c' hc' hne e e' x hx x' hx' => ?_, ?_, ?_⟩
  · obtain ⟨hentries, ⟨hno, hnil⟩ | ⟨hyes, k, i, -, -, hone⟩⟩ := added_cases p e c
    · simp [hentries, hnil, hno]
    · simp [hentries, hone, hyes]
  · exact added_apart hp (hcs c hc) (hcs c' hc') hne hx hx'
  · rintro before c after rfl
    exact outcome_eq_filter hp (hcs c (by simp)) (fun c' hc' => hcs c' (List.mem_append_left _ hc'))
      _
  · rintro before c c' after rfl hne
    have hapart : ∀ k, c.place? p = some k → c'.place? p ≠ some k := fun k =>
      place?_ne hp (hcs c (by simp)) (hcs c' (by simp)) hne
    obtain ⟨o, o', os', hos, hos', hagree⟩ := outcomes_swap hapart (afterAll p .empty before) after
    refine ⟨⟨outcomes p .empty before, o, o', os', length_outcomes .., ?_, ?_⟩, fun file => ?_⟩
    · rw [outcomes_append, hos]
    · rw [outcomes_append, hos']
    · rw [afterAll_append, afterAll_append]
      exact Edits.render_congr fun offset => hagree ⟨file, offset⟩

theorem Address.in_of_resolveRange {p : Program} {file : FileId} {start stop : Nat}
    {needExact : Bool} {a : Address} (hfile : file < p.files.length)
    (h : resolveRange p file start stop needExact = .ok a) : a.In p := by
  obtain ⟨rfl, -, -, hpath⟩ := eq_of_resolveRange h
  refine ⟨hfile, fun n hn => ?_⟩
  have hmem : n ∈ a.path := List.mem_of_mem_head? hn
  rw [hpath] at hmem
  exact Node.mem_everything_of_mem_enclosing hmem

/-- A call of a method expression that is the receiver of another one. -/
def receiverSources : List (Path × String) :=
  [(⟨"main.go"⟩, "package main\n\ntype T struct\x7b\x7d\n\nfunc (t T) M() T\n\n" ++
    "func main() \x7b\n\tT.M(T.M(T\x7b\x7d))\n\x7d\n")]

def receiverEdits : Edits :=
  ⟨[(0, ⟨76, .argument "foo", ", foo"⟩), (0, ⟨75, .argument "foo", ", foo"⟩)]⟩

def receiverChanges (outer inner : Address) : List Change :=
  [.argument outer "foo" true, .argument inner "foo" true, .argument outer "foo" true]

theorem changes_independent_receiver : ∃ p outer inner,
    Program.ofSources (fun _ => none) receiverSources = .ok p ∧
    (∀ c ∈ receiverChanges outer inner, c.address.In p) ∧
    ¬ (Change.argument outer "foo" true).SameNode (.argument inner "foo" true) ∧
    Change.afterAll p .empty (receiverChanges outer inner) = receiverEdits ∧
    ∀ file, receiverEdits.render p file = (Change.afterAll p .empty
      [.argument inner "foo" true, .argument outer "foo" true, .argument outer "foo" true]).render
        p file := by
  have hchecked : (Program.ofSources (fun _ => none) receiverSources).toOption.any (fun p =>
      decide (0 < p.files.length) && (resolveRange p 0 64 77 true).toOption.any fun outer =>
        (resolveRange p 0 68 76 true).toOption.any fun inner =>
          outer.node?.map Node.start != inner.node?.map Node.start &&
            decide (Change.afterAll p .empty (receiverChanges outer inner) = receiverEdits)) =
              true := by
    decide +kernel
  obtain ⟨p, hp, hchecked⟩ := any_toOption.mp hchecked
  obtain ⟨hfile, hchecked⟩ := Bool.and_eq_true_iff.mp hchecked
  obtain ⟨outer, houter, hchecked⟩ := any_toOption.mp hchecked
  obtain ⟨inner, hinner, hchecked⟩ := any_toOption.mp hchecked
  obtain ⟨hstarts, hedits⟩ := Bool.and_eq_true_iff.mp hchecked
  have hedits := of_decide_eq_true hedits
  have hin : ∀ c ∈ receiverChanges outer inner, c.address.In p := by
    have ho := Address.in_of_resolveRange (of_decide_eq_true hfile) houter
    have hi := Address.in_of_resolveRange (of_decide_eq_true hfile) hinner
    simp only [receiverChanges, List.forall_mem_cons]
    exact ⟨ho, hi, ho, nofun⟩
  have hne : ¬ (Change.argument outer "foo" true).SameNode (.argument inner "foo" true) :=
    fun hsame => bne_iff_ne.mp hstarts (congrArg (Option.map Node.start) hsame.2)
  obtain ⟨-, -, -, hswap⟩ := changes_independent (.sources hp) hin
  refine ⟨p, outer, inner, hp, hin, hne, hedits, fun file => ?_⟩
  rw [← hedits]
  exact (hswap [] _ _ _ rfl hne).2 file

end ParamThreading
