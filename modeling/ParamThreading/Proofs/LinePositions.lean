import Mathlib.Data.List.Induction
import Mathlib.Data.Prod.Lex
import Mathlib.Order.Interval.Set.Defs
import ParamThreading.Text.LineIndex

/-!
# Lines and columns in the order of the text

The index finds the line of an offset by halving; the same place is found by walking over the bytes
before it, and every byte leads to a later place.

* `LineIndex.scan`  line and column behind some bytes, byte by byte;
* `LineIndex.search_eq`, `LineIndex.breaksBefore_ofBytes`  what the halving finds;
* `LineIndex.StartsLine`, `LineIndex.startsLine_lineStart`  where the line of an offset starts;
* `LineIndex.position_ofBytes`  the place of an offset is that of the walk;
* `LineIndex.IsPlace`, `LineIndex.isPlace_position`  what the line and the column of an offset
  count;
* `LineIndex.strictMonoOn_position`  later offsets have later places.
-/

namespace ParamThreading

/-! ## places in order -/

namespace LineColumn

/-- A place in the order of the text: by its line, and on the line by its column. -/
def inOrder (p : LineColumn) : Nat ×ₗ Nat := toLex (p.line, p.column)

def advance (p : LineColumn) (b : UInt8) : LineColumn :=
  if b = LineIndex.lineBreak then ⟨p.line + 1, 1⟩ else ⟨p.line, p.column + 1⟩

theorem inOrder_lt_advance (p : LineColumn) (b : UInt8) : p.inOrder < (p.advance b).inOrder := by
  unfold advance
  rw [inOrder, inOrder, Prod.Lex.toLex_lt_toLex]
  split
  · exact .inl (Nat.lt_succ_self _)
  · exact .inr ⟨rfl, Nat.lt_succ_self _⟩

theorem inOrder_le_foldl (p : LineColumn) (bs : List UInt8) :
    p.inOrder ≤ (bs.foldl advance p).inOrder := by
  induction bs generalizing p with
  | nil => exact le_rfl
  | cons b bs ih => exact (inOrder_lt_advance p b).le.trans (ih _)

theorem inOrder_lt_foldl (p : LineColumn) {bs : List UInt8} (h : bs ≠ []) :
    p.inOrder < (bs.foldl advance p).inOrder := by
  cases bs with
  | nil => exact absurd rfl h
  | cons b bs => exact (inOrder_lt_advance p b).trans_le (inOrder_le_foldl _ bs)

end LineColumn

namespace LineIndex

/-! ## line breaks -/

variable {pos : Nat} {bs : List UInt8}

theorem breaksFrom_append (pos : Nat) (bs cs : List UInt8) :
    breaksFrom pos (bs ++ cs) = breaksFrom pos bs ++ breaksFrom (pos + bs.length) cs := by
  induction bs generalizing pos with
  | nil => rfl
  | cons b bs ih =>
    have hnext : pos + 1 + bs.length = pos + (bs.length + 1) := by omega
    simp only [List.cons_append, breaksFrom, ih, List.length_cons, hnext]
    split <;> rfl

theorem breaksFrom_concat (bs : List UInt8) (b : UInt8) : breaksFrom 0 (bs ++ [b]) =
    if b = lineBreak then breaksFrom 0 bs ++ [bs.length] else breaksFrom 0 bs := by
  rw [breaksFrom_append, breaksFrom, breaksFrom, Nat.zero_add]
  split
  · rfl
  · exact List.append_nil _

theorem bounds_of_mem_breaksFrom {i : Nat} (h : i ∈ breaksFrom pos bs) :
    pos ≤ i ∧ i < pos + bs.length := by
  induction bs generalizing pos with
  | nil => cases h
  | cons b bs ih =>
    rw [breaksFrom] at h
    rw [List.length_cons]
    split at h
    · rcases List.mem_cons.mp h with rfl | h
      · omega
      · have := ih h
        omega
    · have := ih h
      omega

theorem length_breaksFrom (pos : Nat) (bs : List UInt8) :
    (breaksFrom pos bs).length = bs.count lineBreak := by
  induction bs generalizing pos with
  | nil => rfl
  | cons b bs ih =>
    rw [breaksFrom, List.count_cons]
    split
    case isTrue hb => simp [hb, ih]
    case isFalse hb => simp [hb, ih]

/-! ## halving -/

section
variable {xs ys : List Nat} {offset : Nat}

theorem getD_lt_iff (hxs : ∀ x ∈ xs, x < offset) (hys : ∀ y ∈ ys, offset ≤ y) {i : Nat}
    (hi : i < xs.length + ys.length) : (xs ++ ys).toArray.getD i 0 < offset ↔ i < xs.length := by
  rw [Array.getD_eq_getD_getElem?, List.getElem?_toArray]
  by_cases hlt : i < xs.length
  · rw [List.getElem?_append_left hlt, List.getElem?_eq_getElem hlt]
    exact iff_of_true (hxs _ (List.getElem_mem hlt)) hlt
  · have hle : xs.length ≤ i := Nat.le_of_not_lt hlt
    have hlt' : i - xs.length < ys.length := by omega
    rw [List.getElem?_append_right hle, List.getElem?_eq_getElem hlt']
    exact iff_of_false (hys _ (List.getElem_mem hlt')).not_gt hlt

/-- The search ends where the offsets cease to be smaller than the one that is looked for. -/
theorem search_eq (hxs : ∀ x ∈ xs, x < offset) (hys : ∀ y ∈ ys, offset ≤ y) {lo hi : Nat}
    (hlo : lo ≤ xs.length) (hhi : xs.length ≤ hi) (hsize : hi ≤ xs.length + ys.length) :
    search (xs ++ ys).toArray offset lo hi = xs.length := by
  fun_induction search (xs ++ ys).toArray offset lo hi with
  | case1 lo hi hlt mid hsmaller ih =>
    have hmid : mid < xs.length := (getD_lt_iff hxs hys (by omega)).mp hsmaller
    exact ih hmid hhi hsize
  | case2 lo hi hlt mid hnot ih =>
    have hmid : xs.length ≤ mid :=
      Nat.le_of_not_lt fun h => hnot ((getD_lt_iff hxs hys (by omega)).mpr h)
    exact ih hlo hmid (by omega)
  | case3 lo hi hempty => omega

end

variable {bytes : ByteArray} {offset : Nat}

theorem breaks_ofBytes (h : offset ≤ bytes.size) : (ofBytes bytes).breaks =
    (breaksFrom 0 (bytes.data.toList.take offset) ++
      breaksFrom offset (bytes.data.toList.drop offset)).toArray := by
  have hlength : (bytes.data.toList.take offset).length = offset := List.length_take_of_le h
  have hsplit := breaksFrom_append 0 (bytes.data.toList.take offset) (bytes.data.toList.drop offset)
  rw [List.take_append_drop, Nat.zero_add, hlength] at hsplit
  rw [ofBytes, hsplit]

theorem breaksBefore_ofBytes (h : offset ≤ bytes.size) : (ofBytes bytes).breaksBefore offset =
    (breaksFrom 0 (bytes.data.toList.take offset)).length := by
  have hlength : (bytes.data.toList.take offset).length = offset := List.length_take_of_le h
  rw [breaksBefore, breaks_ofBytes h, List.size_toArray, List.length_append]
  refine search_eq (fun x hx => ?_) (fun y hy => (bounds_of_mem_breaksFrom hy).1) (Nat.zero_le _)
    (Nat.le_add_right _ _) le_rfl
  have hbounds := bounds_of_mem_breaksFrom hx
  omega

theorem breaksBefore_le (h : offset ≤ bytes.size) :
    (ofBytes bytes).breaksBefore offset ≤ (ofBytes bytes).breaks.size := by
  rw [breaksBefore_ofBytes h, breaks_ofBytes h, List.size_toArray, List.length_append]
  exact Nat.le_add_right _ _

/-! ## the start of a line -/

/-- Behind some bytes a line goes on that starts at an offset: behind a line break or at the
beginning, and with no line break since. -/
structure StartsLine (bs : List UInt8) (start : Nat) : Prop where
  le : start ≤ bs.length
  behind : ∀ i, start = i + 1 → bs[i]? = some lineBreak
  last : ∀ i, start ≤ i → bs[i]? ≠ some lineBreak

theorem StartsLine.concat_break (bs : List UInt8) :
    StartsLine (bs ++ [lineBreak]) (bs.length + 1) := by
  refine ⟨by simp, fun i hi => ?_, fun i hi => ?_⟩
  · cases hi
    exact List.getElem?_concat_length
  · rw [List.getElem?_eq_none (by simpa using hi)]
    nofun

theorem StartsLine.concat_other {start : Nat} {b : UInt8} (h : StartsLine bs start)
    (hb : b ≠ lineBreak) : StartsLine (bs ++ [b]) start := by
  have hle := h.le
  have hlength : (bs ++ [b]).length = bs.length + 1 := List.length_append
  refine ⟨by omega, fun i hi => ?_, fun i hi => ?_⟩
  · rw [List.getElem?_append_left (by omega)]
    exact h.behind i hi
  · rcases Nat.lt_trichotomy i bs.length with hlt | rfl | hgt
    · rw [List.getElem?_append_left hlt]
      exact h.last i hi
    · rw [List.getElem?_concat_length]
      exact fun hsame => hb (Option.some.inj hsame)
    · rw [List.getElem?_eq_none (by omega)]
      nofun

def lastLine (bs : List UInt8) : Nat :=
  ((breaksFrom 0 bs).getLast?.map (· + 1)).getD 0

theorem lastLine_concat (bs : List UInt8) (b : UInt8) :
    lastLine (bs ++ [b]) = if b = lineBreak then bs.length + 1 else lastLine bs := by
  unfold lastLine
  rw [breaksFrom_concat]
  split
  · rw [List.getLast?_concat]
    rfl
  · rfl

theorem startsLine_lastLine (bs : List UInt8) : StartsLine bs (lastLine bs) := by
  induction bs using List.reverseRecOn with
  | nil => exact ⟨le_rfl, nofun, nofun⟩
  | append_singleton bs b ih =>
    rw [lastLine_concat]
    split
    case isTrue hb =>
      rw [hb]
      exact .concat_break bs
    case isFalse hb => exact ih.concat_other hb

theorem lineStart_ofBytes (h : offset ≤ bytes.size) :
    (ofBytes bytes).lineStart offset = lastLine (bytes.data.toList.take offset) := by
  unfold lineStart lastLine
  rw [breaksBefore_ofBytes h, breaks_ofBytes h]
  rcases List.eq_nil_or_concat (breaksFrom 0 (bytes.data.toList.take offset))
    with hnil | ⟨front, last, hlast⟩
  · simp [hnil]
  · simp [hlast]

theorem startsLine_lineStart (h : offset ≤ bytes.size) :
    StartsLine (bytes.data.toList.take offset) ((ofBytes bytes).lineStart offset) := by
  rw [lineStart_ofBytes h]
  exact startsLine_lastLine _

/-! ## walking -/

def scan (bs : List UInt8) : LineColumn := bs.foldl LineColumn.advance ⟨1, 1⟩

theorem scan_append (bs cs : List UInt8) :
    scan (bs ++ cs) = cs.foldl LineColumn.advance (scan bs) :=
  List.foldl_append

theorem scan_eq (bs : List UInt8) :
    scan bs = ⟨(breaksFrom 0 bs).length + 1, bs.length - lastLine bs + 1⟩ := by
  induction bs using List.reverseRecOn with
  | nil => rfl
  | append_singleton bs b ih =>
    have hle := (startsLine_lastLine bs).le
    rw [scan_append, List.foldl_cons, List.foldl_nil, ih, LineColumn.advance, breaksFrom_concat,
      lastLine_concat]
    split
    · simp
    · have hnext : (bs ++ [b]).length - lastLine bs = bs.length - lastLine bs + 1 := by
        rw [List.length_append, List.length_singleton]
        omega
      rw [hnext]

/-- The place of an offset is found by walking to it. -/
theorem position_ofBytes (bytes : ByteArray) (offset : Nat) :
    (ofBytes bytes).position offset = scan (bytes.data.toList.take offset) := by
  have hle : min offset bytes.size ≤ bytes.size := Nat.min_le_right _ _
  have htake : bytes.data.toList.take (min offset bytes.size) = bytes.data.toList.take offset := by
    rw [List.take_eq_take_iff]
    show min (min offset bytes.size) bytes.size = min offset bytes.size
    omega
  have hlength : (bytes.data.toList.take offset).length = min offset bytes.size := List.length_take
  rw [scan_eq, hlength, position]
  show LineColumn.mk ((ofBytes bytes).breaksBefore (min offset bytes.size) + 1)
    (min offset bytes.size - (ofBytes bytes).lineStart (min offset bytes.size) + 1) = _
  rw [breaksBefore_ofBytes hle, lineStart_ofBytes hle, htake]

/-- A place is that behind some bytes, on a line that starts at an offset: there are as many lines
before it as line breaks, and as many columns as bytes since the start of the line. -/
structure IsPlace (bs : List UInt8) (start : Nat) (p : LineColumn) : Prop where
  walked : p = scan bs
  line : p.line = 1 + bs.count lineBreak
  starts : StartsLine bs start
  column : p.column = 1 + (bs.length - start)

theorem isPlace_position (bytes : ByteArray) (offset : Nat) :
    IsPlace (bytes.data.toList.take (min offset bytes.size))
      ((ofBytes bytes).lineStart (min offset bytes.size)) ((ofBytes bytes).position offset) := by
  have hle : min offset bytes.size ≤ bytes.size := Nat.min_le_right _ _
  have hlength : (bytes.data.toList.take (min offset bytes.size)).length = min offset bytes.size :=
    List.length_take_of_le hle
  refine ⟨?_, ?_, startsLine_lineStart hle, ?_⟩
  · rw [← position_ofBytes]
    show (ofBytes bytes).position offset =
      (ofBytes bytes).position (min offset (ofBytes bytes).size)
    rw [position, position, Nat.min_assoc, Nat.min_self]
  · rw [← length_breaksFrom 0, ← breaksBefore_ofBytes hle, Nat.add_comm]
    rfl
  · rw [hlength, Nat.add_comm]
    rfl

theorem strictMonoOn_position (bytes : ByteArray) :
    StrictMonoOn (fun offset => ((ofBytes bytes).position offset).inOrder)
      (Set.Iic bytes.size) := by
  intro a _ b hb hab
  have hbetween : (bytes.data.toList.take b).drop a ≠ [] := by
    rw [← List.length_pos_iff, List.length_drop, List.length_take]
    show 0 < min b bytes.size - a
    have hb : b ≤ bytes.size := hb
    omega
  have hsplit : bytes.data.toList.take b =
      bytes.data.toList.take a ++ (bytes.data.toList.take b).drop a := by
    have htake : (bytes.data.toList.take b).take a = bytes.data.toList.take a := by
      rw [List.take_take, Nat.min_eq_left hab.le]
    rw [← htake, List.take_append_drop]
  show ((ofBytes bytes).position a).inOrder < ((ofBytes bytes).position b).inOrder
  rw [position_ofBytes, position_ofBytes, hsplit, scan_append]
  exact LineColumn.inOrder_lt_foldl _ hbetween

theorem injOn_position (bytes : ByteArray) :
    Set.InjOn (ofBytes bytes).position (Set.Iic bytes.size) := by
  intro a ha b hb hsame
  exact (strictMonoOn_position bytes).injOn ha hb (congrArg LineColumn.inOrder hsame)

end LineIndex

end ParamThreading
