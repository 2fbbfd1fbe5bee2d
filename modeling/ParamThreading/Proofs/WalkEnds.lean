import ParamThreading.Proofs.PlanExact

/-!
# The walk to the callers ends

It ends whatever the answers are. They may go round in circles, repeat calls or contradict each
other: each place is asked for once, and apart from the start only parameter lists of declarations
are asked for. So the number of declarations bounds the number of questions.

* `Walk.next_question`, `Walk.Runs.visited`, `Walk.Runs.congr`  the questions of a walk, and that
  the answers to all others do not count;
* `Address.Inside`  an address in the syntax trees of a program;
* `Program.declarations`, `Visits.key_mem`  the places that a walk can come to;
* `propagateInto_ends`  the bound.
-/

namespace ParamThreading

namespace Walk

variable {program : Program} {query query' : CallerQuery} {w w' : Walk} {asked : List Address}

/-! ## questions -/

/-- A turn either drops a function that was visited, or asks for one that was not and marks it. -/
theorem next_question (h : w.next program query = some w') :
    (w.question? = none ∧ w'.visited = w.visited) ∨
      ∃ a, w.question? = some a ∧ a.key ∉ w.visited ∧ w'.visited = w.visited ++ [a.key] := by
  obtain ⟨hf, a, rest, hp, ⟨hv, rfl⟩ | ⟨hv, rfl⟩⟩ := next_eq_some h
  · exact .inl ⟨by simp [question?, hf, hp, hv], rfl⟩
  · exact .inr ⟨a, by simp [question?, hf, hp, hv], hv, visited_expand ..⟩

theorem question?_of_over (h : w.next program query = none) : w.question? = none := by
  unfold question?
  split
  case h_1 hf hp =>
    rcases next_eq_none h with h | h
    · exact absurd hf h
    · cases hp.symm.trans h
  case h_2 => rfl

theorem next_congr (h : ∀ a, w.question? = some a → query' a = query a) :
    w.next program query' = w.next program query := by
  unfold next
  cases hf : w.failure with
  | some f => rfl
  | none =>
    cases hp : w.pending with
    | nil => rfl
    | cons a rest =>
      by_cases hv : w.visited.contains a.key
      · simp only [hv, if_true]
      · have ha := h a (by simp only [question?, hf, hp, hv]; rfl)
        simp only [hv, expand, ha]

namespace Runs

theorem congr (h : Runs program query w asked w') (hq : ∀ a ∈ asked, query' a = query a) :
    Runs program query' w asked w' := by
  induction h with
  | ended hn =>
    refine .ended ((next_congr fun a ha => ?_).trans hn)
    cases (question?_of_over hn).symm.trans ha
  | turn hn _ ih =>
    refine .turn ((next_congr fun a ha => hq a ?_).trans hn) (ih fun a ha => hq a ?_)
    · exact List.mem_append_left _ (by rw [ha]; exact List.mem_singleton_self a)
    · exact List.mem_append_right _ ha

theorem visited (h : Runs program query w asked w') :
    w'.visited = w.visited ++ asked.map (·.key) := by
  induction h with
  | ended _ => simp
  | turn hn _ ih =>
    rcases next_question hn with ⟨hq, hv⟩ | ⟨a, hq, -, hv⟩
    · rw [ih, hv, hq]
      rfl
    · rw [ih, hv, hq, List.append_assoc]
      rfl

theorem visited_nodup (h : Runs program query w asked w') (hw : w.visited.Nodup) :
    w'.visited.Nodup := by
  induction h with
  | ended _ => exact hw
  | turn hn _ ih =>
    apply ih
    rcases next_question hn with ⟨-, hv⟩ | ⟨a, -, hnew, hv⟩
    · rw [hv]
      exact hw
    · rw [hv, ← List.concat_eq_append]
      exact hw.concat hnew

end Runs

end Walk

/-! ## places in a program -/

/-- The nodes of an address are nodes of a file of the program. -/
structure Address.Inside (a : Address) (p : Program) : Prop where
  file : a.file < p.files.length
  nodes : ∀ n ∈ a.path, n ∈ (p.file a.file).tree.everything

def Declaration.place? (d : Declaration) : Option Key :=
  (d.node.child? .parameters).map fun params => ⟨d.file, params.start⟩

/-- The declarations of functions and methods, wherever they stand in the files. -/
def Program.declarations (p : Program) : List Declaration :=
  (List.range p.files.length).flatMap fun file =>
    ((p.file file).tree.everything.filter (·.isDeclaration)).map fun n => ⟨file, n⟩

theorem Program.mem_declarations {p : Program} {d : Declaration} : d ∈ p.declarations ↔
    d.file < p.files.length ∧ d.node ∈ (p.file d.file).tree.everything ∧
      d.node.isDeclaration = true := by
  unfold declarations
  simp only [List.mem_flatMap, List.mem_range, List.mem_map, List.mem_filter]
  constructor
  · rintro ⟨file, hfile, n, hn, rfl⟩
    exact ⟨hfile, hn⟩
  · rintro ⟨hfile, hn⟩
    exact ⟨d.file, hfile, d.node, hn, rfl⟩

theorem Address.Inside.place_mem {a s : Address} {p : Program} (ha : a.Inside p)
    (h : a.signature? = some s) : s.key ∈ p.declarations.filterMap Declaration.place? := by
  unfold signature? at h
  split at h
  case h_1 params above hpath =>
    cases h
    obtain ⟨inner, d, above, params, hsplit, -, hdecl, hparams, ⟨⟩⟩ :=
      exists_of_parameterPath? hpath
    have hd : d ∈ (p.file a.file).tree.everything := ha.nodes d (by rw [hsplit]; simp)
    refine List.mem_filterMap.mpr ⟨⟨a.file, d⟩, Program.mem_declarations.mpr ⟨ha.file, hd, hdecl⟩,
      ?_⟩
    rw [Declaration.place?, hparams]
    rfl
  case h_2 => cases h

theorem signature?_of_enclosingSignature {program : Program} {e : CallEdge} {s : Address}
    (h : enclosingSignature program e = .ok (some s)) : e.site.signature? = some s := by
  unfold enclosingSignature at h
  split at h
  · split at h
    case h_1 hs =>
      cases h
      exact hs
    case h_2 => cases h
  · cases h

section
variable {program : Program} {query : CallerQuery} {start a : Address}

theorem Visits.key_mem
    (hquery : ∀ a edges, query a = .ok edges → ∀ e ∈ edges, e.site.Inside program)
    (h : Visits program query start a) :
    a.key ∈ start.key :: program.declarations.filterMap Declaration.place? := by
  cases h with
  | start => exact List.mem_cons_self
  | caller _ hq he hs =>
    exact List.mem_cons_of_mem _
      ((hquery _ _ hq _ he).place_mem (signature?_of_enclosingSignature hs))

end

/-- Calls that the graph of a program answers stand in its files. -/
theorem CallGraph.inside_of_incoming {p : Program} {scope : Scope} (hp : p.WellFormed) {a : Address}
    {edges : List CallEdge} (h : (build p scope).incoming p a = .ok edges) :
    ∀ e ∈ edges, e.site.Inside p := by
  intro e he
  obtain ⟨callee, -, h⟩ := bind_eq_ok.mp h
  obtain ⟨calls, hcalls, h⟩ := bind_eq_ok.mp h
  cases h
  obtain ⟨⟨caller, site⟩, hcall, he⟩ := (mem_mapM hcalls).mp (List.mem_mergeSort.mp he)
  obtain ⟨-, hanswers⟩ := callEdge_eq_ok he
  obtain ⟨i, hi⟩ := siteOf_edge hp ((mem_callersOf hp).mp hcall).2 rfl
  obtain ⟨hfile, -, -, hpath⟩ := eq_of_resolveRange hanswers.site
  refine ⟨by rw [hfile, hi.inFile]; exact hi.item.file, fun n hn => ?_⟩
  rw [hpath] at hn
  exact Node.mem_everything_of_mem_enclosing hn

/-- The walk ends for all answers that stay in the files of the program, however they repeat or
contradict each other. No place is asked for twice, no more questions are asked than there are
declarations, and one for the start, and the answers to other questions do not matter. -/
theorem propagateInto_ends (program : Program) (query : CallerQuery) (start : Address)
    (base : Frontier)
    (hquery : ∀ a edges, query a = .ok edges → ∀ e ∈ edges, e.site.Inside program) :
    ∃ asked, Walk.Runs program query ⟨base, [], [start], none⟩ asked
        (propagateInto program query start base) ∧
      (asked.map (·.key)).Nodup ∧ asked.length ≤ 1 + program.declarations.length ∧
      ∀ query' : CallerQuery, (∀ a ∈ asked, query' a = query a) →
        propagateInto program query' start base = propagateInto program query start base := by
  let places := start.key :: program.declarations.filterMap Declaration.place?
  have hplaces : ∀ a, Visits program query start a → a.key ∈ places := fun a ha => ha.key_mem hquery
  have hfin : {k | ∃ a, Visits program query start a ∧ a.key = k}.Finite := by
    refine (List.finite_toSet places).subset ?_
    rintro k ⟨a, ha, rfl⟩
    exact hplaces a ha
  have hinit : Walk.Sound program query start base ⟨base, [], [start], none⟩ := .initial
  obtain ⟨asked, w, hruns⟩ := Walk.exists_runs hfin _ hinit
  have hw : propagateInto program query start base = w := hruns.run_eq
  have hsound : w.Sound program query start base :=
    hruns.run_eq ▸ (Walk.run_ends hfin _ hinit fun _ => .initial).1
  have hvisited : w.visited = asked.map (·.key) := hruns.visited
  have hnodup : (asked.map (·.key)).Nodup := hvisited ▸ hruns.visited_nodup List.nodup_nil
  refine ⟨asked, hw ▸ hruns, hnodup, ?_, fun query' hq => ?_⟩
  · -- different places that all are in a list are no more than the list is long
    have hsubset : asked.map (·.key) ⊆ places := by
      intro k hk
      obtain ⟨a, ha, rfl⟩ := hsound.visited k (hvisited ▸ hk)
      exact hplaces a ha
    calc asked.length = (asked.map (·.key)).length := (List.length_map _).symm
      _ ≤ places.length := (hnodup.subperm hsubset).length_le
      _ ≤ 1 + program.declarations.length := by
        rw [List.length_cons, Nat.add_comm]
        exact Nat.add_le_add_left (List.length_filterMap_le ..) 1
  · exact (hruns.congr hq).run_eq.trans hw.symm

theorem propagateInto_ends_parity : ∃ p a start,
    Program.ofSources (fun _ => none) paritySources = .ok p ∧
    resolve p (fun _ => none) parityRequest.position false = .ok a ∧ signatureOf p a = .ok start ∧
    p.declarations.length = 3 ∧
    let query := (CallGraph.build p (.ofProgram p)).incoming p
    (∀ a edges, query a = .ok edges → ∀ e ∈ edges, e.site.Inside p) ∧
    ∃ asked, Walk.Runs p query ⟨.seeded start, [], [start], none⟩ asked (propagate p query start) ∧
      (asked.map (·.key)).Nodup ∧ asked.length ≤ 1 + p.declarations.length ∧
      ∀ query' : CallerQuery, (∀ a ∈ asked, query' a = query a) →
        propagate p query' start = propagate p query start := by
  have hchecked : (Program.ofSources (fun _ => none) paritySources).toOption.any (fun p =>
      (resolve p (fun _ => none) parityRequest.position false).toOption.any fun a =>
        (signatureOf p a).toOption.any fun _ => p.declarations.length == 3) = true := by
    decide +kernel
  obtain ⟨p, hp, hchecked⟩ := any_toOption.mp hchecked
  obtain ⟨a, ha, hchecked⟩ := any_toOption.mp hchecked
  obtain ⟨start, hstart, hcount⟩ := any_toOption.mp hchecked
  have hloaded : p.Loaded := .sources hp
  have hinside : ∀ a edges, (CallGraph.build p (.ofProgram p)).incoming p a = .ok edges →
      ∀ e ∈ edges, e.site.Inside p :=
    fun _ _ => CallGraph.inside_of_incoming hloaded.wellFormed
  exact ⟨p, a, start, hp, ha, hstart, beq_iff_eq.mp hcount, hinside,
    propagateInto_ends p _ start (.seeded start) hinside⟩

end ParamThreading
