import Mathlib.Data.List.Induction
import ParamThreading.Proofs.PathSegments
import ParamThreading.Sources.Walk

/-!
# Paths below a root as they are shown

Such a path has the components of the root, but for a dot at its beginning, and then the names
below. So the root is a beginning of what is shown unless it begins with a dot itself; if it is more
than that dot, what is compared with patterns is not the path from the root.

* `Path.components_eq`  the components of a path by its segments;
* `Path.below`, `Path.components_below`  a path below a root;
* `Path.isDotted`  roots that begin with a dot and go on;
* `Walker.comparedAs_below`  what is compared with patterns.
-/

namespace ParamThreading

namespace Path

variable {p root : Path} {names rest above : List String} {first name : String}

/-! ## components -/

/-- The component that a segment at the beginning stands for. -/
def leading (segment : String) : Component :=
  if segment = "" then .root
  else if segment = "." then .current
  else if segment = ".." then .parent
  else .name segment

/-- The components that further segments stand for. -/
def inner (segments : List String) : List Component :=
  segments.filterMap fun segment => ofSegment segment.toList

theorem leading_eq_root : leading first = .root ↔ first = "" := by
  by_cases hempty : first = ""
  · simp [leading, hempty]
  by_cases hdot : first = "."
  · simp [leading, hdot]
  by_cases hup : first = ".." <;> simp [leading, hempty, hdot, hup]

theorem leading_eq_current : leading first = .current ↔ first = "." := by
  by_cases hempty : first = ""
  · simp [leading, hempty]
  by_cases hdot : first = "."
  · simp [leading, hdot]
  by_cases hup : first = ".." <;> simp [leading, hempty, hdot, hup]

theorem ofSegment_eq (h : first ≠ "") (hdot : first ≠ ".") :
    ofSegment first.toList = some (leading first) := by
  unfold leading
  rw [if_neg h, if_neg hdot]
  by_cases hup : first = ".."
  · rw [if_pos hup, hup]
    rfl
  · rw [if_neg hup, ofSegment_of_ne h hdot hup]

theorem ofSegment_eq_none {segment : String} :
    ofSegment segment.toList = none ↔ (segment == "" || segment == ".") = true := by
  simp only [Bool.or_eq_true, beq_iff_eq]
  constructor
  · intro hnone
    by_contra hne
    rw [not_or] at hne
    rw [ofSegment_eq hne.1 hne.2] at hnone
    cases hnone
  · rintro (rfl | rfl) <;> rfl

theorem current_not_mem_inner (segments : List String) : Component.current ∉ inner segments := by
  intro h
  obtain ⟨segment, -, hsegment⟩ := List.mem_filterMap.mp h
  unfold ofSegment at hsegment
  split at hsegment <;> cases hsegment

theorem inner_cons_some {segment : String} {c : Component} (h : ofSegment segment.toList = some c) :
    inner (segment :: rest) = c :: inner rest := by
  rw [inner, List.filterMap_cons, h]
  rfl

theorem inner_append (segments segments' : List String) :
    inner (segments ++ segments') = inner segments ++ inner segments' := List.filterMap_append

theorem inner_names (h : ∀ name ∈ names, isFileName name = true) :
    inner names = names.map .name := by
  rw [inner, ← List.filterMap_eq_map]
  exact List.filterMap_congr fun name hname => ofSegment_name (h name hname)

theorem components_eq (hp : p.text ≠ "") (h : p.segments = first :: rest) :
    p.components = leading first :: inner rest := by
  have hfields : Cut.fields '/' p.text.toList = first.toList :: rest.map String.toList := by
    have hmap := congrArg (List.map String.toList) h
    rw [segments, List.map_map] at hmap
    simpa [Function.comp_def] using hmap
  have hinner : (rest.map String.toList).filterMap ofSegment = inner rest := List.filterMap_map
  have hrest : first = "" → rest ≠ [] := by
    rintro rfl rfl
    exact hp (segments_eq_singleton h)
  unfold components
  rw [hfields]
  simp only [hinner]
  split
  case h_1 heq =>
    obtain rfl : first = "" := String.toList_inj.mp heq
    simp [hrest rfl, leading]
  case h_2 heq =>
    obtain rfl : first = "." := String.toList_inj.mp heq
    simp [leading]
  case h_3 hempty hdot =>
    rw [ofSegment_eq (fun h => hempty (by rw [h]; rfl)) fun h => hdot (by rw [h]; rfl)]
    rfl

/-! ## names below a path -/

theorem text_join_ne (hp : p.text ≠ "") (name : String) : (p.join name).text ≠ "" := by
  unfold join
  split <;> simp [hp]

theorem components_join (hp : p.text ≠ "") (hname : isFileName name = true) :
    (p.join name).components = p.components ++ [.name name] := by
  have hlast : inner [name] = [.name name] := inner_names (by simpa using hname)
  rcases segments_join hp (isFileName_iff.mp hname).2.2.2 with ⟨above, hsegments, hjoined⟩ | hjoined
  · cases above with
    | nil => exact absurd (segments_eq_singleton hsegments) hp
    | cons first rest =>
      -- the empty segment at the end stands for nothing
      have hempty : inner [""] = [] := rfl
      rw [List.cons_append] at hsegments hjoined
      rw [components_eq (text_join_ne hp name) hjoined, components_eq hp hsegments, inner_append,
        inner_append, hlast, hempty, List.append_nil, List.cons_append]
  · obtain ⟨first, rest, hsegments⟩ := p.exists_segments
    rw [hsegments, List.cons_append] at hjoined
    rw [components_eq (text_join_ne hp name) hjoined, components_eq hp hsegments,
      inner_append, hlast, List.cons_append]

theorem components_foldl_join (hp : p.text ≠ "") (h : ∀ name ∈ names, isFileName name = true) :
    (names.foldl join p).text ≠ "" ∧
      (names.foldl join p).components = p.components ++ names.map .name := by
  induction names generalizing p with
  | nil => exact ⟨hp, (List.append_nil _).symm⟩
  | cons name names ih =>
    obtain ⟨hname, hnames⟩ := List.forall_mem_cons.mp h
    obtain ⟨htext, hcomponents⟩ := ih (text_join_ne hp name) hnames
    refine ⟨htext, ?_⟩
    rw [List.foldl_cons, hcomponents, components_join hp hname, List.append_assoc]
    rfl

/-- The segments of a path below another one, up to an empty one at the end of that. -/
theorem segments_foldl_join (hp : p.text ≠ "") (h : ∀ name ∈ names, isFileName name = true)
    (hne : names ≠ []) : ∃ above, (p.segments = above ∨ p.segments = above ++ [""]) ∧
      (names.foldl join p).segments = above ++ names := by
  induction names using List.reverseRecOn with
  | nil => exact absurd rfl hne
  | append_singleton names name ih =>
    obtain ⟨-, -, -, hslash⟩ := isFileName_iff.mp (h name (by simp))
    have hnames : ∀ x ∈ names, isFileName x = true := fun x hx => h x (List.mem_append_left _ hx)
    rw [List.foldl_append, List.foldl_cons, List.foldl_nil]
    by_cases hnil : names = []
    · subst hnil
      rcases segments_join hp hslash with ⟨above, hsegments, hjoined⟩ | hjoined
      · exact ⟨above, .inr hsegments, hjoined⟩
      · exact ⟨p.segments, .inl rfl, hjoined⟩
    · obtain ⟨above, habove, hsegments⟩ := ih hnames hnil
      refine ⟨above, habove, ?_⟩
      have htext := (components_foldl_join hp hnames).1
      rcases segments_join htext hslash with ⟨above', hempty, -⟩ | hjoined
      · -- what ends in a name does not end in a separator
        obtain ⟨init, last, rfl⟩ : ∃ init last, names = init ++ [last] :=
          ⟨names.dropLast, names.getLast hnil, (List.dropLast_append_getLast hnil).symm⟩
        rw [hsegments, ← List.append_assoc] at hempty
        obtain ⟨-, hlast⟩ := List.append_inj' hempty rfl
        have hname := hnames last (by simp)
        cases hlast
        cases hname
      · rw [hjoined, hsegments, List.append_assoc]

/-! ## paths without a dot at their beginning -/

def plain (cs : List Component) : List Component :=
  if cs.head? = some .current then cs.tail else cs

theorem withoutDot_of_dot (h : p.segments = "." :: rest) :
    p.withoutDot = ⟨"/".intercalate (rest.dropWhile fun s => s == "" || s == ".")⟩ := by
  rw [withoutDot, h]
  rfl

theorem inner_dropWhile (segments : List String) :
    inner (segments.dropWhile fun s => s == "" || s == ".") = inner segments := by
  induction segments with
  | nil => rfl
  | cons segment segments ih =>
    rw [List.dropWhile_cons]
    by_cases hsegment : (segment == "" || segment == ".") = true
    · rw [if_pos hsegment, ih, inner, inner, List.filterMap_cons, ofSegment_eq_none.mpr hsegment]
    · rw [if_neg hsegment]

theorem components_intercalate (hempty : first ≠ "") (hdot : first ≠ ".")
    (h : ∀ name ∈ first :: rest, '/' ∉ name.toList) :
    components ⟨"/".intercalate (first :: rest)⟩ = inner (first :: rest) := by
  have hsegments := segments_intercalate (List.cons_ne_nil first rest) h
  have htext : "/".intercalate (first :: rest) ≠ "" := by
    intro hnil
    rw [hnil] at hsegments
    cases hsegments
    exact hempty rfl
  rw [inner_cons_some (ofSegment_eq hempty hdot)]
  exact components_eq htext hsegments

theorem components_withoutDot (hp : p.text ≠ "") :
    p.withoutDot.components = plain p.components := by
  obtain ⟨first, rest, hsegments⟩ := p.exists_segments
  rw [components_eq hp hsegments]
  by_cases hdot : first = "."
  · subst hdot
    rw [withoutDot_of_dot hsegments, show plain (leading "." :: inner rest) = inner rest from rfl,
      ← inner_dropWhile]
    have hslash : ∀ name ∈ rest.dropWhile (fun s => s == "" || s == "."), '/' ∉ name.toList := by
      intro name hname
      refine not_mem_of_mem_segments (p := p) ?_
      rw [hsegments]
      exact List.mem_cons_of_mem _ ((List.dropWhile_suffix _).subset hname)
    have hhead := List.head?_dropWhile_not (fun s => s == "" || s == ".") rest
    cases hkept : rest.dropWhile (fun s => s == "" || s == ".") with
    | nil => rfl
    | cons next more =>
      rw [hkept] at hslash hhead
      have hnext : next ≠ "" ∧ next ≠ "." := by simpa using hhead
      exact components_intercalate hnext.1 hnext.2 hslash
  · rw [withoutDot_of_ne (by rw [hsegments]; simpa using hdot), components_eq hp hsegments,
      plain, if_neg]
    simpa [leading_eq_current] using hdot

/-- The path of names below a root, as it is shown. -/
def below (root : Path) (names : List String) : Path := (names.foldl join root).withoutDot

theorem plain_append {cs cs' : List Component} (hne : cs ≠ []) :
    plain (cs ++ cs') = plain cs ++ cs' := by
  cases cs with
  | nil => exact absurd rfl hne
  | cons c cs =>
    by_cases hc : c = .current
    · simp [plain, hc]
    · simp [plain, hc]

theorem components_ne_nil (hp : p.text ≠ "") : p.components ≠ [] := by
  obtain ⟨first, rest, hsegments⟩ := p.exists_segments
  rw [components_eq hp hsegments]
  exact List.cons_ne_nil _ _

theorem components_below (hroot : root.text ≠ "") (h : ∀ name ∈ names, isFileName name = true) :
    (root.below names).components = plain root.components ++ names.map .name := by
  obtain ⟨htext, hcomponents⟩ := components_foldl_join hroot h
  rw [below, components_withoutDot htext, hcomponents, plain_append (components_ne_nil hroot)]

theorem below_inj {names' : List String} (hroot : root.text ≠ "")
    (h : ∀ name ∈ names, isFileName name = true) (h' : ∀ name ∈ names', isFileName name = true)
    (heq : (root.below names).components = (root.below names').components) : names = names' := by
  rw [components_below hroot h, components_below hroot h'] at heq
  exact List.map_injective_iff.mpr (fun a b hab => Component.name.inj hab)
    (List.append_cancel_left heq)

theorem text_ne_of_components (h : p.components ≠ []) : p.text ≠ "" := by
  intro hempty
  apply h
  unfold components
  rw [hempty]
  rfl

theorem text_below_dot (hroot : root.components = [.current])
    (h : ∀ name ∈ names, isFileName name = true)
    (hne : names ≠ []) : (root.below names).text = "/".intercalate names := by
  have htext : root.text ≠ "" := text_ne_of_components (by rw [hroot]; exact List.cons_ne_nil _ _)
  obtain ⟨above, habove, hsegments⟩ := segments_foldl_join htext h hne
  obtain ⟨first, rest, hown⟩ := root.exists_segments
  rw [components_eq htext hown, List.cons.injEq, leading_eq_current] at hroot
  obtain ⟨rfl, hinner⟩ := hroot
  rw [hown] at habove
  obtain ⟨more, rfl, hmore⟩ : ∃ more, above = "." :: more ∧ ∀ segment ∈ more, segment ∈ rest := by
    rcases habove with rfl | habove
    · exact ⟨rest, rfl, fun _ => id⟩
    · cases above with
      | nil => simp at habove
      | cons first more =>
        obtain ⟨rfl, rfl⟩ := List.cons.inj habove
        exact ⟨more, rfl, fun _ => List.mem_append_left _⟩
  -- above the names stands only what is dropped
  have hidle : ∀ segment ∈ more, (segment == "" || segment == ".") = true := fun segment hsegment =>
    ofSegment_eq_none.mp (List.filterMap_eq_nil_iff.mp hinner segment (hmore segment hsegment))
  have hnames : names.dropWhile (fun s => s == "" || s == ".") = names := by
    cases names with
    | nil => rfl
    | cons name names =>
      obtain ⟨hempty, hdot, -, -⟩ := isFileName_iff.mp (h name List.mem_cons_self)
      rw [List.dropWhile_cons, if_neg (by simp [hempty, hdot])]
  rw [List.cons_append] at hsegments
  rw [below, withoutDot_of_dot hsegments, List.dropWhile_append_of_pos hidle, hnames]

/-! ## a dot put in front -/

def withDot (p : Path) : Path := ⟨"./" ++ p.text⟩

/-- The path begins with a name or goes up. -/
def isPlain (p : Path) : Bool := p.components.head?.any fun c => c != .root && c != .current

theorem text_ne_of_isPlain (hp : p.isPlain = true) : p.text ≠ "" := by
  refine text_ne_of_components fun hnil => ?_
  rw [isPlain, hnil] at hp
  cases hp

theorem isPlain_iff (hp : p.text ≠ "") (h : p.segments = first :: rest) :
    p.isPlain = true ↔ first ≠ "" ∧ first ≠ "." := by
  rw [isPlain, components_eq hp h, List.head?_cons, Option.any_some, Bool.and_eq_true,
    bne_iff_ne, bne_iff_ne]
  exact and_congr leading_eq_root.not leading_eq_current.not

theorem segments_withDot (p : Path) : p.withDot.segments = "." :: p.segments := by
  have hfields : Cut.fields '/' ("./" ++ p.text).toList =
      ['.'] :: Cut.fields '/' p.text.toList := by
    rw [String.toList_append]
    exact Cut.fields_append ['.'] p.text.toList
  rw [segments, withDot, hfields]
  rfl

theorem withoutDot_withDot (hp : p.isPlain = true) : p.withDot.withoutDot = p := by
  obtain ⟨first, rest, hsegments⟩ := p.exists_segments
  obtain ⟨hempty, hdot⟩ := (isPlain_iff (text_ne_of_isPlain hp) hsegments).mp hp
  have hkept : p.segments.dropWhile (fun s => s == "" || s == ".") = p.segments := by
    rw [hsegments, List.dropWhile_cons, if_neg (by simp [hempty, hdot])]
  rw [withoutDot_of_dot p.segments_withDot, hkept, ← text_eq]

theorem components_withDot (hp : p.isPlain = true) :
    p.withDot.components = .current :: p.components := by
  obtain ⟨first, rest, hsegments⟩ := p.exists_segments
  have htext := text_ne_of_isPlain hp
  obtain ⟨hempty, hdot⟩ := (isPlain_iff htext hsegments).mp hp
  have hdotted : p.withDot.text ≠ "" := by simp [withDot]
  rw [components_eq hdotted p.segments_withDot, hsegments,
    inner_cons_some (ofSegment_eq hempty hdot), components_eq htext hsegments]
  rfl

theorem join_withDot (hp : p.text ≠ "") (name : String) :
    p.withDot.join name = (p.join name).withDot := by
  have hlast : ("./" ++ p.text).toList.getLast? = p.text.toList.getLast? := by
    rw [String.toList_append, List.getLast?_append_of_ne_nil _ (by simpa using hp)]
  have hempty : ("./" ++ p.text).isEmpty = p.text.isEmpty := by
    rw [Bool.eq_iff_iff]
    simp [hp]
  unfold join withDot
  rw [hlast, hempty]
  split <;> simp [String.append_assoc]

theorem foldl_join_withDot (hp : p.text ≠ "") (names : List String) :
    names.foldl join p.withDot = (names.foldl join p).withDot := by
  induction names generalizing p with
  | nil => rfl
  | cons name names ih =>
    rw [List.foldl_cons, List.foldl_cons, join_withDot hp, ih (text_join_ne hp name)]

theorem isPlain_foldl_join (hp : p.isPlain = true) (h : ∀ name ∈ names, isFileName name = true) :
    (names.foldl join p).isPlain = true := by
  have htext := text_ne_of_isPlain hp
  rw [isPlain, (components_foldl_join htext h).2,
    List.head?_append_of_ne_nil _ (components_ne_nil htext)]
  exact hp

theorem below_withDot (hp : p.isPlain = true) (h : ∀ name ∈ names, isFileName name = true) :
    p.withDot.below names = p.below names := by
  have hjoined := isPlain_foldl_join hp h
  have hhead : (names.foldl join p).segments.head? ≠ some "." := by
    obtain ⟨first, rest, hsegments⟩ := (names.foldl join p).exists_segments
    rw [hsegments, List.head?_cons, Ne, Option.some.injEq]
    exact ((isPlain_iff (text_ne_of_isPlain hjoined) hsegments).mp hjoined).2
  rw [below, foldl_join_withDot (text_ne_of_isPlain hp), withoutDot_withDot hjoined, below,
    withoutDot_of_ne hhead]

theorem locate_withDot (d : Disk) (hp : p.isPlain = true) : d.locate p.withDot = d.locate p := by
  obtain ⟨first, rest, hsegments⟩ := p.exists_segments
  have htext := text_ne_of_isPlain hp
  obtain ⟨hempty, -⟩ := (isPlain_iff htext hsegments).mp hp
  have hstart : d.startOf p = d.cwd := by
    refine if_neg fun hslash => hempty ?_
    obtain ⟨rest', hsegments'⟩ := exists_segments_of_isAbsolute hslash
    exact (List.cons.inj (hsegments.symm.trans hsegments')).1
  have hstart' : d.startOf p.withDot = d.cwd := by
    refine if_neg ?_
    simp [withDot]
  have hdotted : p.withDot.text ≠ "" := by simp [withDot]
  rw [Disk.locate, Disk.locate, if_neg (by simpa using hdotted), if_neg (by simpa using htext),
    Disk.follow, Disk.follow, hstart, hstart', segments_withDot, hsegments, List.foldlM_cons]
  by_cases hcwd : d.isDirectoryAt d.cwd = true
  · have hstay : d.step d.cwd "." = .ok d.cwd := by simp [Disk.step, hcwd]
    rw [hstay]
    rfl
  · have hfail : ∀ segment, d.step d.cwd segment = .error .notDirectory := by simp [Disk.step, hcwd]
    rw [List.foldlM_cons, hfail, hfail]
    rfl

/-! ## what is compared with patterns -/

/-- The path begins with a dot and goes on. -/
def isDotted (p : Path) : Bool := p.components.head? == some .current && p.components != [.current]

theorem isDotted_withDot (hp : p.isPlain = true) : p.withDot.isDotted = true := by
  have hne := components_ne_nil (text_ne_of_isPlain hp)
  simp [isDotted, components_withDot hp, hne]

theorem isDotted_of_isAbsolute (hp : p.isAbsolute = true) : p.isDotted = false := by
  obtain ⟨rest, hsegments⟩ := exists_segments_of_isAbsolute hp
  simp [isDotted, components_eq (ne_empty_of_isAbsolute hp) hsegments, leading]

theorem isDotted_of_isPlain (hp : p.isPlain = true) : p.isDotted = false := by
  rw [isPlain, Option.any_eq_true] at hp
  obtain ⟨c, hc, hplain⟩ := hp
  rw [Bool.and_eq_true, bne_iff_ne, bne_iff_ne] at hplain
  simp [isDotted, hc, hplain.2]

end Path

namespace Walker

variable {root : Path} {names : List String}

/-- Patterns are compared with the names below the root, unless the root begins with a dot and goes
on. -/
theorem comparedAs_below (hroot : root.text ≠ "") (h : ∀ name ∈ names, isFileName name = true)
    (hne : names ≠ []) : comparedAs root (root.below names) names =
      if root.isDotted then (root.below names).text else "/".intercalate names := by
  have hshown := Path.components_below hroot h
  unfold comparedAs
  cases hcomponents : root.components with
  | nil => exact absurd hcomponents (Path.components_ne_nil hroot)
  | cons first rest =>
    rw [hshown, hcomponents]
    by_cases hdot : first = .current
    · subst hdot
      rw [show Path.plain (.current :: rest) = rest from rfl]
      have hrest : Component.current ∉ rest ++ names.map .name := by
        obtain ⟨segment, segments, hsegments⟩ := root.exists_segments
        obtain ⟨-, rfl⟩ :=
          List.cons.inj (hcomponents.symm.trans (Path.components_eq hroot hsegments))
        simpa using Path.current_not_mem_inner segments
      have hbegin : (Component.current :: rest).isPrefixOf (rest ++ names.map .name) = false := by
        rw [Bool.eq_false_iff, Ne, List.isPrefixOf_iff_prefix]
        exact fun hbegins => hrest (hbegins.subset List.mem_cons_self)
      rw [hbegin, if_neg Bool.false_ne_true]
      by_cases halone : rest = []
      · subst halone
        rw [Path.text_below_dot hcomponents h hne, ite_self]
      · rw [if_pos]
        simp [Path.isDotted, hcomponents, halone]
    · rw [show Path.plain (first :: rest) = first :: rest from if_neg (by simpa using hdot),
        if_pos (List.isPrefixOf_iff_prefix.mpr (List.prefix_append _ _)), if_neg]
      simp [Path.isDotted, hcomponents, hdot]

end Walker

end ParamThreading
