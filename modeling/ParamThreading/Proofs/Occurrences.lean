import ParamThreading.Proofs.ResolvedCalls

/-!
# The places where names are bound

An item is scanned from its end to its start, and each place records what it tells of its name as
long as no more is known.

* `Occurrence`, `Item.occurrences`  the places of an item, in the order of the scan;
* `Names.tells?`, `Names.bindingsOf_eq`  what is told at a place, and the bindings as a run over the
  places;
* `Names.foldl_recordAt_other`, `Names.isSome_foldl_recordAt`  what a run leaves alone, and what it
  binds;
* `Item.occurrences_ordered`  the places in the text.
-/

namespace ParamThreading

open Rule Grammar

/-- A place where a node binds a name: one of the targets of the node, and its position among them.
-/
structure Occurrence where
  node : Node
  target : Node
  index : Nat
deriving Inhabited

namespace Node

/-- The names that a node binds, and what else stands in their place. -/
def targets (n : Node) : List Node :=
  match n.kind with
  | .parameterDeclaration | .variadicParameterDeclaration | .varSpec | .constSpec =>
    n.childrenIn .name
  | .shortVarDeclaration | .assignmentStatement | .rangeClause =>
    ((n.child? .left).map codeChildren).getD []
  | _ => []

def values (n : Node) : List Node :=
  match n.kind with
  | .shortVarDeclaration | .assignmentStatement => ((n.child? .right).map codeChildren).getD []
  | .varSpec | .constSpec => ((n.child? .value).map codeChildren).getD []
  | _ => []

def occurrences (n : Node) : List Occurrence :=
  n.targets.zipIdx.map fun x => ⟨n, x.1, x.2⟩

theorem node_of_mem_occurrences {n : Node} {o : Occurrence} (h : o ∈ n.occurrences) :
    o.node = n := by
  obtain ⟨_, -, rfl⟩ := List.mem_map.mp h
  rfl

theorem exists_occurrence {n t : Node} (h : t ∈ n.targets) : ∃ o ∈ n.occurrences, o.target = t := by
  obtain ⟨i, hi⟩ := List.getElem?_of_mem h
  exact ⟨⟨n, t, i⟩, List.mem_map.mpr ⟨(t, i), List.mem_zipIdx_iff_getElem?.mpr hi, rfl⟩, rfl⟩

end Node

namespace Occurrence

variable (text : String) (o : Occurrence)

def name : String := o.target.text text

def declared? : Option String := (o.node.child? .type).bind (namedType? text)

def value? : Option Node :=
  if o.node.targets.length = o.node.values.length then o.node.values[o.index]? else none

def literal? : Option Node :=
  (o.value?.bind (·.reach? (Names.valueStep text))).filter (·.kind = .funcLiteral)

/-- Whether a place is recorded, given whether it gives a literal. An assignment is recorded only if
it does. -/
def countsIf (givesLiteral : Bool) : Bool :=
  match o.node.kind with
  | .shortVarDeclaration => o.target.kind = .identifier
  | .assignmentStatement => o.target.kind = .identifier && givesLiteral
  | .parameterDeclaration | .variadicParameterDeclaration | .varSpec | .constSpec | .rangeClause =>
    true
  | _ => false

end Occurrence

namespace Names

variable {names : Names} {file : FileId} {bs : Bindings}

def givenFunction? (names : Names) (file : FileId) (o : Occurrence) : Option FunctionId :=
  (o.literal? (names.program.file file).text).bind fun l => functionAt? names.functions file l.start

def given (names : Names) (file : FileId) (bs : Bindings) (o : Occurrence) : Binding :=
  names.valueAt file bs o.node.targets.length o.index o.node.values

/-- What is recorded at a place: parameters are known by their types, and of the names in a range
clause nothing is known. An assignment only counts if it gives a literal. -/
def tells? (names : Names) (file : FileId) (bs : Bindings) (o : Occurrence) : Option Binding :=
  let text := (names.program.file file).text
  match o.node.kind with
  | .parameterDeclaration | .variadicParameterDeclaration =>
    some (((o.declared? text).map .type).getD .unknown)
  | .shortVarDeclaration =>
    if o.target.kind = .identifier then some (names.given file bs o) else none
  | .assignmentStatement =>
    if o.target.kind = .identifier && 2 ≤ (names.given file bs o).rank then
      some (names.given file bs o)
    else none
  | .varSpec | .constSpec =>
    some (match names.given file bs o, o.declared? text with
      | .literal l, _ => .literal l
      | _, some t => .type t
      | other, none => other)
  | .rangeClause => some .unknown
  | _ => none

def recordAt (names : Names) (file : FileId) (bs : Bindings) (o : Occurrence) : Bindings :=
  match names.tells? file bs o with
  | some value => bs.bind (o.name (names.program.file file).text) value
  | none => bs

/-! ## bindings as a run over places -/

theorem bindParameters_eq {n : Node}
    (hk : n.kind = .parameterDeclaration ∨ n.kind = .variadicParameterDeclaration) :
    names.bindParameters file bs n = n.occurrences.foldl (names.recordAt file) bs := by
  have htargets : n.targets = n.childrenIn .name := by
    rcases hk with hk | hk <;> simp [Node.targets, hk]
  rw [Node.occurrences, List.foldl_map, htargets, bindParameters, Bindings.bindAll, List.foldl_map,
    ← foldl_zipIdx_fst]
  rcases hk with hk | hk <;> simp only [recordAt, tells?, hk] <;> rfl

theorem bindAssigned_eq {n : Node}
    (hk : n.kind = .shortVarDeclaration ∨ n.kind = .assignmentStatement) :
    names.bindAssigned file bs n = n.occurrences.foldl (names.recordAt file) bs := by
  have htargets : n.targets = ((n.child? .left).map Node.codeChildren).getD [] := by
    rcases hk with hk | hk <;> simp [Node.targets, hk]
  have hvalues : n.values = ((n.child? .right).map Node.codeChildren).getD [] := by
    rcases hk with hk | hk <;> simp [Node.values, hk]
  rw [Node.occurrences, List.foldl_map, bindAssigned, ← htargets, ← hvalues]
  refine List.foldl_ext _ _ _ fun bs x _ => ?_
  rcases hk with hk | hk
  · simp only [recordAt, tells?, hk]
    split <;> rfl
  · simp only [recordAt, tells?, hk, given, Occurrence.name]
    by_cases htarget : x.1.kind = .identifier
    · by_cases hrank : 2 ≤ (names.valueAt file bs n.targets.length x.2 n.values).rank
      · have hhigh := Nat.not_lt.mpr hrank
        simp only [htarget, hrank, hhigh, decide_true, decide_false, Bool.and_false, Bool.and_true,
          Bool.false_eq_true, if_true, if_false]
      · have hlow := Nat.lt_of_not_le hrank
        simp only [htarget, hrank, hlow, decide_true, decide_false, Bool.and_false, Bool.and_true,
          Bool.false_eq_true, if_true, if_false]
    · simp [htarget]

theorem bindDeclared_eq {n : Node} (hk : n.kind = .varSpec ∨ n.kind = .constSpec) :
    names.bindDeclared file bs n = n.occurrences.foldl (names.recordAt file) bs := by
  rw [Node.occurrences, List.foldl_map]
  rcases hk with hk | hk <;>
  simp only [bindDeclared, recordAt, tells?, hk, given, Node.targets, Node.values] <;> rfl

theorem bindRange_eq {n : Node} (hk : n.kind = .rangeClause) :
    names.bindRange file bs n = n.occurrences.foldl (names.recordAt file) bs := by
  have htargets : n.targets = ((n.child? .left).map Node.codeChildren).getD [] := by
    simp [Node.targets, hk]
  rw [Node.occurrences, List.foldl_map, htargets, bindRange, Bindings.bindAll, List.foldl_map,
    ← foldl_zipIdx_fst]
  simp only [recordAt, tells?, hk]
  rfl

theorem bindNode_eq (n : Node) :
    names.bindNode file bs n = n.occurrences.foldl (names.recordAt file) bs := by
  unfold bindNode
  split
  case h_1 hk => exact bindParameters_eq (.inl hk)
  case h_2 hk => exact bindParameters_eq (.inr hk)
  case h_3 hk => exact bindAssigned_eq (.inl hk)
  case h_4 hk => exact bindAssigned_eq (.inr hk)
  case h_5 hk => exact bindDeclared_eq (.inl hk)
  case h_6 hk => exact bindDeclared_eq (.inr hk)
  case h_7 hk => exact bindRange_eq hk
  case h_8 =>
    have htargets : n.targets = [] := by
      unfold Node.targets
      split <;> simp_all
    rw [Node.occurrences, htargets]
    rfl

end Names

def Item.occurrences (item : Item) : List Occurrence :=
  item.node.backward.flatMap Node.occurrences

theorem Item.mem_occurrences {item : Item} {o : Occurrence} (h : o ∈ item.occurrences) :
    o.node ∈ item.node.backward ∧ o ∈ o.node.occurrences := by
  obtain ⟨n, hn, ho⟩ := List.mem_flatMap.mp h
  cases Node.node_of_mem_occurrences ho
  exact ⟨hn, ho⟩

namespace Names

variable {names : Names} {file : FileId} {bs : Bindings}

theorem bindingsOf_eq (item : Item) :
    names.bindingsOf item = item.occurrences.foldl (names.recordAt item.file) [] := by
  rw [bindingsOf, Item.occurrences, List.foldl_flatMap]
  exact List.foldl_ext _ _ _ fun bs n _ => bindNode_eq n

end Names

/-! ## what is known of a name -/

namespace Bindings

theorem get?_bind (bs : Bindings) (name x : String) (value : Binding) :
    (bs.bind name value).get? x =
      if name = x ∧ x ≠ "_" ∧ (bs.get? x).all (·.rank ≤ value.rank) then some value
      else bs.get? x := by
  rw [bind, Binding.stays_eq]
  by_cases hname : name = x
  · subst hname
    by_cases hblank : name = "_"
    · simp [hblank]
    · cases hget : bs.get? name with
      | none => simp [hblank, get?]
      | some old =>
        by_cases hrank : value.rank < old.rank
        · simp [hblank, hrank, hget, Nat.not_le.mpr hrank]
        · simp [hblank, hrank, get?, Nat.le_of_not_lt hrank]
  · split
    · simp [hname]
    · have hne : (x == name) = false := by simpa using Ne.symm hname
      simp [get?, List.lookup_cons, hne, hname]

theorem isSome_get?_bind {bs : Bindings} {name x : String} {value : Binding} (hx : x ≠ "_") :
    ((bs.bind name value).get? x).isSome = true ↔ name = x ∨ (bs.get? x).isSome = true := by
  rw [get?_bind]
  by_cases hname : name = x
  · cases hget : bs.get? x with
    | none => simp [hname, hx]
    | some old => split <;> simp
  · simp [hname]

end Bindings

namespace Names

variable {names : Names} {file : FileId} {bs : Bindings} {x : String}

theorem get?_recordAt_other {o : Occurrence} (h : o.name (names.program.file file).text ≠ x) :
    (names.recordAt file bs o).get? x = bs.get? x := by
  unfold recordAt
  split
  · rw [Bindings.get?_bind, if_neg fun hand => h hand.1]
  · rfl

theorem foldl_recordAt_other {os : List Occurrence}
    (h : ∀ o ∈ os, o.name (names.program.file file).text ≠ x) :
    (os.foldl (names.recordAt file) bs).get? x = bs.get? x := by
  induction os generalizing bs with
  | nil => rfl
  | cons o os ih =>
    rw [List.foldl_cons, ih fun o' ho' => h o' (List.mem_cons_of_mem o ho'),
      get?_recordAt_other (h o List.mem_cons_self)]

/-! ### literals -/

theorem two_le_rank {b : Binding} : 2 ≤ b.rank ↔ ∃ f, b = .literal f := by
  cases b <;> simp [Binding.rank]

theorem valueOf_eq_literal {e : Node} {f : FunctionId} : names.valueOf file bs e = .literal f ↔
    ((e.reach? (valueStep (names.program.file file).text)).filter (·.kind = .funcLiteral)).bind
      (fun l => functionAt? names.functions file l.start) = some f := by
  -- neither a type nor a foreign value is told as a literal
  have hforeign : ∀ n, (if names.isForeign file bs n = true then Binding.foreign else .unknown) ≠
      .literal f := by
    intro n
    split <;> nofun
  have htype : ∀ t : Option String, (t.map Binding.type).getD .unknown ≠ .literal f := by
    intro t
    cases t <;> nofun
  unfold valueOf
  dsimp only
  cases e.reach? (valueStep (names.program.file file).text) with
  | none => simp
  | some n =>
    by_cases hk : n.kind = .funcLiteral
    · cases hat : functionAt? names.functions file n.start <;> simp [hk, hat, Option.filter]
    · have hnone : (some n).filter (fun l => decide (l.kind = .funcLiteral)) = none := by
        simp [Option.filter, hk]
      rw [hnone]
      refine ⟨fun h => absurd h ?_, nofun⟩
      dsimp only
      split
      case h_1 hliteral => exact absurd hliteral hk
      case h_2 => exact htype _
      case h_3 =>
        split
        · exact htype _
        · exact hforeign _
      case h_4 => exact hforeign _
      case h_5 => nofun

theorem given_eq_literal {o : Occurrence} {f : FunctionId} :
    names.given file bs o = .literal f ↔ names.givenFunction? file o = some f := by
  unfold given valueAt givenFunction? Occurrence.literal? Occurrence.value?
  by_cases hcount : o.node.targets.length = o.node.values.length
  · rw [if_pos hcount, if_pos hcount]
    cases o.node.values[o.index]? with
    | none => simp
    | some e => exact valueOf_eq_literal
  · rw [if_neg hcount, if_neg hcount]
    refine ⟨fun h => absurd h ?_, nofun⟩
    split
    · split <;> nofun
    · nofun

/-- A place that is recorded, whatever is known when it is visited. -/
def counts (names : Names) (file : FileId) (o : Occurrence) : Bool :=
  o.countsIf (names.givenFunction? file o).isSome

theorem counts_of_countsIf {o : Occurrence} (h : o.countsIf false = true) :
    names.counts file o = true := by
  unfold counts Occurrence.countsIf at *
  split <;> simp_all

theorem counts_congr {names' : Names} {o : Occurrence} (hprogram : names.program = names'.program)
    (hfunctions : names.functions = names'.functions) :
    names.counts file o = names'.counts file o := by
  unfold counts givenFunction?
  rw [hprogram, hfunctions]

theorem isSome_tells? {o : Occurrence} : (names.tells? file bs o).isSome = names.counts file o := by
  unfold tells? counts Occurrence.countsIf
  dsimp only
  split
  case h_3 hk =>
    rw [hk]
    by_cases htarget : o.target.kind = .identifier <;> simp [htarget]
  case h_4 hk =>
    have hrank :
        decide (2 ≤ (names.given file bs o).rank) = (names.givenFunction? file o).isSome := by
      rw [Bool.eq_iff_iff, decide_eq_true_iff, two_le_rank, Option.isSome_iff_exists]
      simp only [given_eq_literal]
    rw [hrank, hk]
    dsimp only
    split <;> simp_all
  case h_8 => split <;> simp_all
  all_goals simp_all

theorem isSome_foldl_recordAt {os : List Occurrence} (hx : x ≠ "_") :
    ((os.foldl (names.recordAt file) bs).get? x).isSome = true ↔ (bs.get? x).isSome = true ∨
      ∃ o ∈ os, o.name (names.program.file file).text = x ∧ names.counts file o = true := by
  induction os generalizing bs with
  | nil => simp
  | cons o os ih =>
    have hstep : ((names.recordAt file bs o).get? x).isSome = true ↔ (bs.get? x).isSome = true ∨
        (o.name (names.program.file file).text = x ∧ names.counts file o = true) := by
      rw [← @isSome_tells? names file bs, recordAt]
      cases names.tells? file bs o with
      | none => simp
      | some value => simp [Bindings.isSome_get?_bind hx, or_comm]
    rw [List.foldl_cons, ih, hstep, or_assoc]
    simp

theorem givenFunction?_of_tells? {o : Occurrence} {f : FunctionId}
    (h : names.tells? file bs o = some (.literal f)) : names.givenFunction? file o = some f := by
  rw [← @given_eq_literal names file bs]
  unfold tells? at h
  dsimp only at h
  split at h
  · cases ht : o.declared? (names.program.file file).text <;> simp [ht] at h
  · cases ht : o.declared? (names.program.file file).text <;> simp [ht] at h
  · split at h
    · exact Option.some.inj h
    · cases h
  · split at h
    · exact Option.some.inj h
    · cases h
  · cases hgiven : names.given file bs o <;>
      cases ht : o.declared? (names.program.file file).text <;>
    simp_all
  · cases hgiven : names.given file bs o <;>
      cases ht : o.declared? (names.program.file file).text <;>
    simp_all
  · cases h
  · cases h

/-- A name that is known to hold a function is given its literal at one of the places. -/
theorem literal_foldl_recordAt {os : List Occurrence} {f : FunctionId}
    (h : (os.foldl (names.recordAt file) bs).get? x = some (.literal f)) :
    bs.get? x = some (.literal f) ∨ ∃ o ∈ os, o.name (names.program.file file).text = x ∧
      names.givenFunction? file o = some f := by
  induction os generalizing bs with
  | nil => exact .inl h
  | cons o os ih =>
    rcases ih h with h | ⟨o', ho', hgiven⟩
    · unfold recordAt at h
      split at h
      case h_1 value htells =>
        rw [Bindings.get?_bind] at h
        split at h
        case isTrue hname =>
          cases h
          exact .inr ⟨o, List.mem_cons_self, hname.1, givenFunction?_of_tells? htells⟩
        case isFalse => exact .inl h
      case h_2 => exact .inl h
    · exact .inr ⟨o', List.mem_cons_of_mem o ho', hgiven⟩

end Names

/-! ## places in the text -/

namespace Node

theorem exists_of_search {step : Node → Option Way} {search : List Node → Option Node}
    {p : Node → Bool} (hnil : search [] = none)
    (hcons : ∀ c cs, search (c :: cs) = if p c then c.reach? step else search cs) {cs : List Node}
    {m : Node} (h : search cs = some m) : ∃ c ∈ cs, c.reach? step = some m := by
  induction cs with
  | nil =>
    rw [hnil] at h
    cases h
  | cons c cs ih =>
    rw [hcons] at h
    by_cases hc : p c = true
    · rw [if_pos hc] at h
      exact ⟨c, List.mem_cons_self, h⟩
    · rw [if_neg hc] at h
      obtain ⟨d, hd, h⟩ := ih h
      exact ⟨d, List.mem_cons_of_mem c hd, h⟩

theorem reachLast_eq_some {step : Node → Option Way} {found : Option Node}
    {cs : List Node} {m : Node}
    (h : reachLast step found cs = some m) : found = some m ∨ ∃ c ∈ cs, c.reach? step = some m := by
  induction cs generalizing found with
  | nil => exact .inl h
  | cons c cs ih =>
    rw [reachLast] at h
    rcases ih h with h | ⟨d, hd, h⟩
    · split at h
      · exact .inr ⟨c, List.mem_cons_self, h⟩
      · exact .inl h
    · exact .inr ⟨d, List.mem_cons_of_mem c hd, h⟩

theorem mem_everything_of_reach? {step : Node → Option Way} {n m : Node}
    (h : n.reach? step = some m) : m ∈ n.everything := by
  induction n using induct with
  | step n ih =>
    have hchild : (∃ c ∈ n.children, c.reach? step = some m) → m ∈ n.everything := by
      rintro ⟨c, hc, hreach⟩
      exact mem_everything.mpr (.inr ⟨c, hc, ih c hc hreach⟩)
    obtain ⟨k, r, a, b, cs⟩ := n
    rw [reach?] at h
    split at h
    · cases h
      exact self_mem_everything _
    · exact hchild (exists_of_search rfl (fun _ _ => rfl) h)
    · exact hchild (exists_of_search rfl (fun _ _ => rfl) h)
    · exact hchild ((reachLast_eq_some h).resolve_left nofun)

theorem values_below {n v : Node} (h : v ∈ n.values) : v ∈ n.everything := by
  have hlist : ∀ role, v ∈ ((n.child? role).map codeChildren).getD [] → v ∈ n.everything := by
    intro role hv
    cases hchild : n.child? role with
    | none => rw [hchild] at hv; cases hv
    | some list =>
      rw [hchild] at hv
      refine mem_everything.mpr (.inr ⟨list, List.mem_of_find?_eq_some hchild, ?_⟩)
      exact mem_everything.mpr (.inr ⟨v, (List.mem_filter.mp hv).1, self_mem_everything v⟩)
  unfold values at h
  split at h
  · exact hlist _ h
  · exact hlist _ h
  · exact hlist _ h
  · exact hlist _ h
  · cases h

/-- Of two nodes the one that is visited later lies in the other one or in front of it. -/
theorem backward_ordered {n : Node} (h : n.All Neat) :
    n.backward.Pairwise fun m m' => m' ∈ m.everything ∨ m'.stop ≤ m.start := by
  induction n using induct with
  | step n ih =>
    rw [backward_eq]
    refine List.pairwise_cons.mpr
      ⟨fun m hm => .inl ?_, List.pairwise_flatMap.mpr ⟨fun c hc => ?_, ?_⟩⟩
    · refine mem_everything_of_mem_backward ?_
      rw [backward_eq]
      exact List.mem_cons_of_mem n hm
    · have hc := (List.mem_filter.mp (List.mem_reverse.mp hc)).1
      exact ih c hc (h.child hc)
    · rw [List.pairwise_reverse]
      refine (h.self.ordered.filter _).imp_of_mem fun {x y} hx hy hxy m hm m' hm' => .inr ?_
      obtain ⟨hx, -⟩ := List.mem_filter.mp hx
      obtain ⟨hy, hnamed⟩ := List.mem_filter.mp hy
      have h₁ := (covers (h.child hy) (mem_everything_of_mem_backward hm)).1
      have h₂ := (covers (h.child hx) (mem_everything_of_mem_backward hm')).2
      have h₃ := hxy.2.2 hnamed
      omega

end Node

theorem Occurrence.literal?_eq_some {text : String} {o : Occurrence} {l : Node}
    (h : o.literal? text = some l) : l ∈ o.node.everything ∧ l.kind = .funcLiteral := by
  obtain ⟨hreach, hk⟩ := Option.filter_eq_some_iff.mp h
  obtain ⟨v, hv, hreach⟩ := Option.bind_eq_some_iff.mp hreach
  unfold value? at hv
  split at hv
  · have hvalue := Node.values_below (List.mem_of_getElem? hv)
    exact ⟨Node.everything_trans (Node.mem_everything_of_reach? hreach) hvalue,
      of_decide_eq_true hk⟩
  · cases hv

/-- Of two places the one that is visited later lies in the node of the other one or in front of it.
-/
theorem Item.occurrences_ordered {p : Program} (hp : p.WellFormed) {item : Item}
    (hi : item ∈ p.items) :
    item.occurrences.Pairwise fun o o' => o'.node ∈ o.node.everything ∨
      o'.node.stop ≤ o.node.start := by
  have hneat := ((Program.itemOf_mem hi).tree hp).1
  refine List.pairwise_flatMap.mpr ⟨fun n _ => ?_, ?_⟩
  · refine List.pairwise_of_forall_mem_list fun o ho o' ho' => .inl ?_
    rw [Node.node_of_mem_occurrences ho, Node.node_of_mem_occurrences ho']
    exact Node.self_mem_everything n
  · refine (Node.backward_ordered hneat).imp fun {m m'} hm o ho o' ho' => ?_
    rw [Node.node_of_mem_occurrences ho, Node.node_of_mem_occurrences ho']
    exact hm

theorem Program.givenFunction?_eq {p : Program} (hp : p.WellFormed) {item : Item}
    (hi : item ∈ p.items)
    {names : Names} (hnames : names.program = p) (hfunctions : names.functions = p.functions)
    {o : Occurrence} (ho : o ∈ item.occurrences) {l : Node}
    (hl : o.literal? (p.file item.file).text = some l) :
    ∃ id, names.givenFunction? item.file o = some id ∧ p.functions[id]? =
      some ⟨.literal (p.file item.file).package item.file item.node.isDeclaration, some l⟩ := by
  obtain ⟨hbelow, hk⟩ := Occurrence.literal?_eq_some hl
  have hmem := Node.mem_everything_of_mem_backward (Item.mem_occurrences ho).1
  obtain ⟨above, hpath⟩ := Node.exists_path ((itemOf_mem hi).tree hp).2
    (Node.everything_trans hbelow hmem) (by rw [hk]; rfl)
  obtain ⟨id, hat, hid⟩ :=
    CallGraph.functionAt?_literal hp hi (hpath.mem_backward List.mem_cons_self) hk
  refine ⟨id, ?_, hid⟩
  unfold Names.givenFunction?
  rw [hnames, hfunctions, hl]
  exact hat

end ParamThreading
