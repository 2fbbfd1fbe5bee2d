/-!
# Patterns over a sequence of symbols

The symbols may be bytes or characters.

* `Pattern`  the forms of patterns;
* `Pattern.ends`  where a match that starts at a position may end;
* `Pattern.matchesAll`, `Pattern.matchesSomewhere`  matches of a whole sequence and within one.
-/

namespace ParamThreading

inductive Pattern (α : Type) where
  | empty
  | symbol (accepts : α → Bool)
  /-- Matches no symbol, but looks at the ones on either side. -/
  | boundary (between : Option α → Option α → Bool)
  | seq (p q : Pattern α)
  | alt (p q : Pattern α)
  | star (p : Pattern α)

namespace Pattern

variable {α : Type}

def anything : Pattern α :=
  .symbol fun _ => true

def nothing : Pattern α :=
  .symbol fun _ => false

def opt (p : Pattern α) : Pattern α :=
  .alt p .empty

def seqs (ps : List (Pattern α)) : Pattern α :=
  ps.foldr .seq .empty

def alts : List (Pattern α) → Pattern α
  | [] => nothing
  | [p] => p
  | p :: ps => .alt p (alts ps)

def exactly [BEq α] (xs : List α) : Pattern α :=
  seqs (xs.map fun x => .symbol (· == x))

/-- Between `low` and `high` matches in a row, or any number from `low` on. -/
def repeated (p : Pattern α) (low : Nat) (high : Option Nat) : Pattern α :=
  let more := match high with
    | none => .star p
    | some h => (List.replicate (h - low) p).foldr (fun q rest => opt (.seq q rest)) .empty
  .seq (seqs (List.replicate low p)) more

def before (text : Array α) (i : Nat) : Option α :=
  if i = 0 then none else text[i - 1]?

/-- The positions that steps lead to, with those seen already and those found last. -/
def closure (next : Nat → List Nat) : Nat → List Nat → List Nat → List Nat
  | 0, seen, _ => seen
  | n + 1, seen, found =>
    match ((found.flatMap next).filter fun j => !seen.contains j).eraseDups with
    | [] => seen
    | fresh => closure next n (seen ++ fresh) fresh

/-- The positions at which a match that starts at a position may end. -/
def ends (text : Array α) : Pattern α → Nat → List Nat
  | .empty, i => [i]
  | .symbol accepts, i => if text[i]?.any accepts then [i + 1] else []
  | .boundary between, i => if between (before text i) text[i]? then [i] else []
  | .seq p q, i => ((ends text p i).flatMap (ends text q)).eraseDups
  | .alt p q, i => (ends text p i ++ ends text q i).eraseDups
  | .star p, i => closure (ends text p) (text.size + 1) [i] [i]

def matchesAll (p : Pattern α) (text : Array α) : Bool :=
  (p.ends text 0).contains text.size

def matchesSomewhere (p : Pattern α) (text : Array α) : Bool :=
  (List.range (text.size + 1)).any fun i => !(p.ends text i).isEmpty

end Pattern

end ParamThreading
