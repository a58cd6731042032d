import NandHdl.Text.ClusterKind

/-!
# Clusters

A reader takes several characters for one: a letter with its accents, a family
of joined pictures, a flag. These are the extended grapheme clusters of Unicode.

* `goesOn`: whether a character belongs to the cluster before it.
* `clusters`: a text as the clusters it consists of.
* `flatten_clusters`: nothing is lost.
-/

namespace NandHdl.Text

namespace ClusterKind

/-- Such a character belongs to the one before it. -/
def isAppended : ClusterKind → Bool
  | extending | linking | joiner | spacing => true
  | _ => false

/-- Such a character extends the one before it, without joining it to the next picture. -/
def isExtension : ClusterKind → Bool
  | extending | linking => true
  | _ => false

/-- The letters of a Korean syllable: a leading consonant stays with what may follow it, and so on. -/
def inSyllable : ClusterKind → ClusterKind → Bool
  | leading, leading | leading, vowel | leading, openSyllable | leading, closedSyllable => true
  | openSyllable, vowel | openSyllable, closing | vowel, vowel | vowel, closing => true
  | closedSyllable, closing | closing, closing => true
  | _, _ => false

end ClusterKind

open ClusterKind (ofChar)

/-- The first character of a text is of the kind `k`. -/
def startsWithKind (k : ClusterKind) : List Char → Bool
  | [] => false
  | c :: _ => ofChar c = k

/-- Marks that may stand between a consonant and the one bound to it. The zero-width non-joiner keeps them
apart. -/
def isBindingMark (c : Char) : Bool :=
  c ≠ '\u200c' && ((ofChar c).isExtension || ofChar c = .joiner)

/-- The cluster ends in a consonant that binds the next one. A cluster is given last character first, here
and below. -/
def bindsConsonant (cluster : List Char) : Bool :=
  (cluster.takeWhile isBindingMark).any (ofChar · = .linking) &&
    startsWithKind .consonant (cluster.dropWhile isBindingMark)

/-- The cluster ends in a picture that a joiner joins to the next one. -/
def joinsPicture : List Char → Bool
  | [] => false
  | last :: cluster =>
    ofChar last = .joiner && startsWithKind .picture (cluster.dropWhile fun c => (ofChar c).isExtension)

/-- The cluster ends in the first half of a flag. -/
def opensFlag (cluster : List Char) : Bool :=
  (cluster.takeWhile (ofChar · = .regional)).length % 2 = 1

/-- The character belongs to the cluster before it. -/
def goesOn (cluster : List Char) (c : Char) : Bool :=
  match cluster with
  | [] => false
  | last :: _ =>
    let before := ofChar last
    let kind := ofChar c
    if last = '\r' ∧ c = '\n' then true
    else if before = .control ∨ kind = .control then false
    else kind.isAppended || before = .prepended || before.inSyllable kind ||
      (kind = .consonant && bindsConsonant cluster) ||
      (kind = .picture && joinsPicture cluster) ||
      (kind = .regional && opensFlag cluster)

/-- The clusters of a text that starts with `cluster` and goes on with the given characters. -/
def clustersFrom (cluster : List Char) : List Char → List (List Char)
  | [] => [cluster.reverse]
  | c :: cs =>
    if goesOn cluster c then clustersFrom (c :: cluster) cs else cluster.reverse :: clustersFrom [c] cs

/-- The clusters of a text. -/
def clusters : List Char → List (List Char)
  | [] => []
  | c :: cs => clustersFrom [c] cs

theorem flatten_clustersFrom (cluster cs : List Char) :
    (clustersFrom cluster cs).flatten = cluster.reverse ++ cs := by
  induction cs generalizing cluster with
  | nil => simp [clustersFrom]
  | cons c cs ih => simp only [clustersFrom]; split <;> simp [ih]

/-- The clusters of a text make up the text. -/
theorem flatten_clusters (cs : List Char) : (clusters cs).flatten = cs := by
  cases cs with
  | nil => rfl
  | cons c cs => simp [clusters, flatten_clustersFrom]

end NandHdl.Text
