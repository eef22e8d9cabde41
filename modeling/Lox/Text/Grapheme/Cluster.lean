import Lox.Text.Grapheme.Class

/-!
# Grapheme clusters

A text is divided into extended grapheme clusters, what a reader takes for one character
each, by the rules of Unicode 17.0. A rule looks at the two characters on either side of a
place and, where flags, joined pictographs or bound consonants are concerned, at what comes
before them. What it looks at never reaches past the start of the cluster, so the cluster
read so far is all that has to be known.

## Main definitions

* `GraphemeCluster.accepts` — whether a character belongs to the cluster before it.
* `graphemeClusters` — the clusters of a text.

## Main statements

* `graphemeClusters_flatten` — the clusters of a text, put together, are the text.
-/

namespace Lox

namespace GraphemeCluster

open GraphemeClass

/-! ### The cluster so far

The characters of a cluster are given newest first. -/

/-- Whether the newest character stands after a pictograph and marks on it. -/
def followsPictograph (cluster : List Char) : Bool :=
  match cluster.tail.dropWhile (fun c => ofChar c = .extend) with
  | [] => false
  | c :: _ => ofChar c = .pictograph

/-- Whether the newest characters are an odd number of letters of flags, so that the last flag
is half done. -/
def flagBegun (cluster : List Char) : Bool :=
  (cluster.takeWhile fun c => ofChar c = .regional).length % 2 = 1

/-- Whether a character can stand between two consonants that are bound: a mark, but not the
zero width non-joiner. -/
def standsBetween (c : Char) : Bool :=
  ofChar c = .joiner || (ofChar c = .extend && c.toNat ≠ 0x200c)

/-- Whether the newest characters are marks on a consonant, and one of them binds it to the
next. -/
def linkBegun (cluster : List Char) : Bool :=
  (cluster.takeWhile standsBetween).any isLinker &&
    match cluster.dropWhile standsBetween with
    | [] => false
    | c :: _ => ofChar c = .consonant

/-! ### The rules -/

/-- Whether a cluster goes on with a character, given the class of its newest character and
that of the next. The first alternative that fits decides. -/
def goesOn (cluster : List Char) : (newest next : GraphemeClass) → Bool
  | .carriageReturn, .lineFeed => true
  | .carriageReturn, _ | .lineFeed, _ | .control, _ => false
  | _, .carriageReturn | _, .lineFeed | _, .control => false
  | .leading, .leading | .leading, .vowel | .leading, .openSyllable
  | .leading, .closedSyllable => true
  | .openSyllable, .vowel | .openSyllable, .trailing | .vowel, .vowel
  | .vowel, .trailing => true
  | .closedSyllable, .trailing | .trailing, .trailing => true
  | _, .extend | _, .joiner | _, .spacing => true
  | .prepend, _ => true
  | _, .consonant => linkBegun cluster
  | .joiner, .pictograph => followsPictograph cluster
  | .regional, .regional => flagBegun cluster
  | _, _ => false

/-- Whether a cluster goes on with a character. -/
def accepts (cluster : List Char) (next : Char) : Bool :=
  match cluster with
  | [] => true
  | newest :: _ => goesOn cluster (ofChar newest) (ofChar next)

/-- Adds a character to the clusters of a text: to the last one, or as a new one. The
clusters are given newest first, and so are the characters in each. -/
def add (clusters : List (List Char)) (next : Char) : List (List Char) :=
  match clusters with
  | [] => [[next]]
  | cluster :: earlier =>
    if accepts cluster next then (next :: cluster) :: earlier
    else [next] :: cluster :: earlier

/-- The text that clusters are made of. The clusters are given newest first, and so are the
characters in each. -/
def textOf (clusters : List (List Char)) : List Char := clusters.flatten.reverse

theorem textOf_add (clusters : List (List Char)) (next : Char) :
    textOf (add clusters next) = textOf clusters ++ [next] := by
  cases clusters with
  | nil => rfl
  | cons cluster earlier =>
    rw [add]
    split <;> simp [textOf]

theorem textOf_foldl_add (text : List Char) (clusters : List (List Char)) :
    textOf (text.foldl add clusters) = textOf clusters ++ text := by
  induction text generalizing clusters with
  | nil => simp
  | cons next text ih =>
    rw [List.foldl_cons, ih, textOf_add, List.append_assoc, List.singleton_append]

end GraphemeCluster

/-- The grapheme clusters of a text, in order. -/
def graphemeClusters (text : List Char) : List (List Char) :=
  ((text.foldl GraphemeCluster.add []).map List.reverse).reverse

/-- Dividing a text loses nothing and adds nothing. -/
theorem graphemeClusters_flatten (text : List Char) : (graphemeClusters text).flatten = text := by
  rw [graphemeClusters, ← List.reverse_flatten, ← GraphemeCluster.textOf,
    GraphemeCluster.textOf_foldl_add]
  rfl

end Lox
