import NandHdl.Text.Cluster
import NandHdl.Text.Words

/-!
# Typed lines

At a prompt a backspace takes back the cluster typed before it. The size of a
cluster is remembered in a single byte: of a longer one, only the bytes in
excess of a multiple of 256 are taken back.

* `Typed.add`: a line after one more cluster.
* `typedLine`: what a line comes to.
* `typedLine_eq_self`: without a backspace a line is what was typed.
* `typedLines`: the lines of a text typed at a prompt.
-/

namespace NandHdl.Text

/-- A line as far as it is typed: its text, last character first, and the sizes of the clusters it was typed
in, the last first. -/
structure Typed where
  text : List Char
  sizes : List Nat

/-- Drops characters whose encoding has `n` bytes in all. -/
def dropBytes (n : Nat) : List Char → List Char
  | [] => []
  | c :: cs => if n = 0 then c :: cs else dropBytes (n - c.utf8Size) cs

/-- The number of bytes in the encoding of a text. -/
def byteSize (cs : List Char) : Nat := (cs.map Char.utf8Size).foldr (· + ·) 0

/-- Takes back the last cluster, if there is one. -/
def Typed.erase (t : Typed) : Typed :=
  match t.sizes with
  | [] => t
  | n :: sizes => ⟨dropBytes n t.text, sizes⟩

/-- Types a cluster. -/
def Typed.add (t : Typed) (cluster : List Char) : Typed :=
  if cluster = ['\x08'] then t.erase
  else ⟨cluster.reverse ++ t.text, byteSize cluster % 256 :: t.sizes⟩

/-- What a line comes to once its backspaces have done their work. -/
def typedLine (line : String) : String :=
  String.ofList ((clusters line.toList).foldl Typed.add ⟨[], []⟩).text.reverse

theorem text_foldl_add (ks : List (List Char)) (t : Typed) (h : ['\x08'] ∉ ks) :
    (ks.foldl Typed.add t).text = ks.flatten.reverse ++ t.text := by
  induction ks generalizing t with
  | nil => rfl
  | cons k ks ih =>
    simp only [List.mem_cons, not_or] at h
    rw [List.foldl_cons, ih _ h.2, Typed.add, if_neg (Ne.symm h.1)]
    simp

/-- A line without a backspace is what was typed. -/
theorem typedLine_eq_self {line : String} (h : '\x08' ∉ line.toList) : typedLine line = line := by
  have hk : ['\x08'] ∉ clusters line.toList := fun hm =>
    h (flatten_clusters line.toList ▸ List.mem_flatten.2 ⟨_, hm, List.mem_singleton.2 rfl⟩)
  simp [typedLine, text_foldl_add _ _ hk, flatten_clusters]

/-- The lines of a text typed at a prompt. -/
def typedLines (s : String) : List String := (lines s).map typedLine

end NandHdl.Text
