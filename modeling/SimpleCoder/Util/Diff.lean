/-
# Line diffs

`unified_diff` is the preview of an edit that the user is shown before confirming it.
-/
import SimpleCoder.Bytes
import SimpleCoder.Lib.Lines

namespace SimpleCoder

/-- `split_lines`: the lines of a text; a trailing newline does not add an empty one. -/
def splitLines (s : Bytes) : List Bytes :=
  let (complete, rest) := Lines.lines newline s
  if rest = [] then complete else complete ++ [rest]

inductive OpKind where
  | equal
  | del
  | add
  deriving DecidableEq, Repr

/-- How an operation is marked in the diff. -/
def OpKind.sign : OpKind → Bytes
  | .equal => bytes " "
  | .del => bytes "-"
  | .add => bytes "+"

/-- One diff operation against the line sequences. -/
structure Op where
  kind : OpKind
  text : Bytes
  deriving DecidableEq

/-- One row of `lcs_ops`' table, over the suffixes of the second sequence. -/
def lcsRow (x : Bytes) (next : List Bytes → Nat) : List Bytes → Nat
  | [] => 0
  | y :: b => if x = y then next b + 1 else max (next (y :: b)) (lcsRow x next b)

/-- `dp[i][j]` for the suffixes of the two sequences that start at `i` and `j`. -/
def lcsLength : List Bytes → List Bytes → Nat
  | [], _ => 0
  | x :: a, b => lcsRow x (lcsLength a) b

/-- The backtracking loop of `lcs_ops` while it stays at the line `x` of the first sequence. -/
def lcsOpsRow (x : Bytes) (a : List Bytes) (next : List Bytes → List Op) :
    List Bytes → List Op
  | [] => (x :: a).map (Op.mk .del)
  | y :: b =>
    if x = y then ⟨.equal, x⟩ :: next b
    else if lcsLength a (y :: b) ≥ lcsLength (x :: a) b then ⟨.del, x⟩ :: next (y :: b)
    else ⟨.add, y⟩ :: lcsOpsRow x a next b

/-- `lcs_ops`. -/
def lcsOps : List Bytes → List Bytes → List Op
  | [], b => b.map (Op.mk .add)
  | x :: a, b => lcsOpsRow x a (lcsOps a) b

/-- `keep[k]`: whether the operation at `k` is at most `context` away from a change. -/
def keeps (ops : List Op) (context : Int) (k : Nat) : Bool :=
  ops.zipIdx.any fun p =>
    p.1.kind ≠ .equal && decide ((p.2 : Int) - context ≤ k ∧ (k : Int) ≤ p.2 + context)

/-- What the rendering loop carries. -/
structure Render where
  out : Bytes := []
  inGap : Bool := false
  wroteAny : Bool := false

/-- The body of the rendering loop. -/
def Render.step (r : Render) (op : Op) (keep : Bool) : Render :=
  if op.kind = .equal ∧ keep = false then { r with inGap := true }
  else
    let out := if r.inGap ∧ r.wroteAny then r.out ++ bytes "@@\n" else r.out
    { out := out ++ op.kind.sign ++ op.text ++ [newline], inGap := false, wroteAny := true }

/-- `unified_diff`. -/
def unifiedDiff (oldText newText : Bytes) (context maxLines : Int) : Bytes :=
  if oldText = newText then []
  else
    let a := splitLines oldText
    let b := splitLines newText
    if (a.length : Int) > maxLines ∨ (b.length : Int) > maxLines then
      bytes "(" ++ decimal a.length ++ bytes " lines → " ++ decimal b.length ++
        bytes " lines; diff too large to preview)"
    else
      let ops := lcsOps a b
      (ops.zipIdx.foldl (fun (r : Render) p => r.step p.1 (keeps ops context p.2)) {}).out

/-- `unified_diff` with its default arguments. -/
def editPreview (oldText newText : Bytes) : Bytes := unifiedDiff oldText newText 3 4000

end SimpleCoder
