import TinyScript.Bytecode.Compile
import TinyScript.Proofs.Bytecode.Listing

/-!
# Code without placeholders

A `Chunk` is the code of a phrase that can stand anywhere: its instructions are known once the
number of constants before it, its place and the target of `break` are. Chunks are put together by
a few operations, one for each shape of code (`seq`, `andAlso`, `arm`, `loop`, `each` and so on),
and `exprChunk`, `stmtChunk` give the chunk of every phrase directly, with all jumps at their
targets. Each chunk also has the height of the stack before each of its instructions (`spots`).
Phrases that cannot be compiled get some code of the right height.
-/

namespace TinyScript.Bytecode

namespace Instr

/-- The number of values that an instruction takes from the stack. -/
def pops (i : Instr) : Nat :=
  match i.op with
  | .constant | .getGlobal | .true | .false | .none | .jump | .iterRange => 0
  | .setGlobal | .not | .minus | .jumpNotTruthy => 1
  | .setIndex | .slice | .stepRange => 3
  | .drop | .array | .map => i.operands.headD 0
  | _ => 2

/-- The number of values that an instruction leaves on the stack. -/
def pushes (i : Instr) : Nat :=
  match i.op with
  | .setGlobal | .drop | .setIndex | .jump | .jumpNotTruthy => 0
  | .iterRange => if i.operands.headD 0 = 0 then 0 else 1
  | _ => 1

/-- The height of the stack after an instruction that goes on to the next one. -/
def heightAfter (i : Instr) (h : Nat) : Nat :=
  h - i.pops + i.pushes

end Instr

/-- Code of a phrase that can stand anywhere. -/
structure Chunk where
  /-- The constants that the code adds. -/
  pool : List Cell
  /-- The number of bytes. -/
  size : Nat
  /-- The instructions after `k` constants at place `p`, where `break` goes to `x`. -/
  code : (k p x : Nat) → List Instr
  /-- The places of the jumps for `break`, for code at place `p`. -/
  breaks : (p : Nat) → List Nat
  /-- The places of the instructions with the height of the stack there, for code at place `p` and
  height `h` before it. -/
  spots : (p h : Nat) → List (Nat × Nat)
  /-- The height of the stack after the code. -/
  after : (h : Nat) → Nat

namespace Chunk

/-- No code. -/
def empty : Chunk where
  pool := []
  size := 0
  code _ _ _ := []
  breaks _ := []
  spots _ _ := []
  after h := h

/-- One instruction. -/
def instr (i : Instr) : Chunk where
  pool := []
  size := i.size
  code _ _ _ := [i]
  breaks _ := []
  spots p h := [(p, h)]
  after := i.heightAfter

/-- One instruction that pushes a constant. -/
def const (c : Cell) : Chunk where
  pool := [c]
  size := 3
  code k _ _ := [⟨.constant, [k]⟩]
  breaks _ := []
  spots p h := [(p, h)]
  after h := h + 1

/-- One chunk after the other. -/
def seq (c d : Chunk) : Chunk where
  pool := c.pool ++ d.pool
  size := c.size + d.size
  code k p x := c.code k p x ++ d.code (k + c.pool.length) (p + c.size) x
  breaks p := c.breaks p ++ d.breaks (p + c.size)
  spots p h := c.spots p h ++ d.spots (p + c.size) (c.after h)
  after h := d.after (c.after h)

/-- The second operand is only computed if the first one holds. -/
def andAlso (c d : Chunk) : Chunk where
  pool := c.pool ++ d.pool
  size := c.size + (3 + (d.size + 4))
  code k p x :=
    c.code k p x ++ ⟨.jumpNotTruthy, [p + (c.size + (3 + (d.size + 3)))]⟩ ::
      (d.code (k + c.pool.length) (p + c.size + 3) x ++
        [⟨.jump, [p + (c.size + (3 + (d.size + 4)))]⟩, ⟨.false, []⟩])
  breaks _ := []
  spots p h :=
    c.spots p h ++ (p + c.size, h + 1) :: (d.spots (p + c.size + 3) h ++
      [(p + c.size + 3 + d.size, h + 1), (p + c.size + 3 + d.size + 3, h)])
  after h := h + 1

/-- The second operand is only computed if the first one does not hold. -/
def orElse (c d : Chunk) : Chunk where
  pool := c.pool ++ d.pool
  size := c.size + (7 + d.size)
  code k p x :=
    c.code k p x ++ ⟨.jumpNotTruthy, [p + (c.size + 7)]⟩ :: ⟨.true, []⟩ ::
      ⟨.jump, [p + (c.size + (7 + d.size))]⟩ :: d.code (k + c.pool.length) (p + c.size + 7) x
  breaks _ := []
  spots p h :=
    c.spots p h ++ (p + c.size, h + 1) :: (p + c.size + 3, h) :: (p + c.size + 4, h + 1) ::
      d.spots (p + c.size + 7) h
  after h := h + 1

/-- A condition, what is done if it holds, and a jump over `d`, which is done if it does not. -/
def arm (test body d : Chunk) : Chunk where
  pool := test.pool ++ (body.pool ++ d.pool)
  size := test.size + (3 + (body.size + (3 + d.size)))
  code k p x :=
    test.code k p x ++ ⟨.jumpNotTruthy, [p + test.size + 3 + body.size + 3]⟩ ::
      (body.code (k + test.pool.length) (p + test.size + 3) x ++
        ⟨.jump, [p + test.size + 3 + body.size + 3 + d.size]⟩ ::
          d.code (k + test.pool.length + body.pool.length) (p + test.size + 3 + body.size + 3) x)
  breaks p := body.breaks (p + test.size + 3) ++ d.breaks (p + test.size + 3 + body.size + 3)
  spots p h :=
    test.spots p h ++ (p + test.size, h + 1) :: (body.spots (p + test.size + 3) h ++
      (p + test.size + 3 + body.size, h) :: d.spots (p + test.size + 3 + body.size + 3) h)
  after h := h

/-- A loop as long as a condition holds. -/
def loop (test body : Chunk) : Chunk where
  pool := test.pool ++ body.pool
  size := test.size + (3 + (body.size + 3))
  code k p _ :=
    let stop := p + test.size + 3 + body.size + 3
    test.code k p stop ++ ⟨.jumpNotTruthy, [stop]⟩ ::
      (body.code (k + test.pool.length) (p + test.size + 3) stop ++ [⟨.jump, [p]⟩])
  breaks _ := []
  spots p h :=
    test.spots p h ++ (p + test.size, h + 1) ::
      (body.spots (p + test.size + 3) h ++ [(p + test.size + 3 + body.size, h)])
  after h := h

/-- A loop over a range; `bind` keeps what the range gives, if `binds` holds. -/
def each (range : Chunk) (binds : Bool) (bind body : Chunk) : Chunk where
  pool := range.pool ++ (bind.pool ++ body.pool)
  size := range.size + (5 + (bind.size + (body.size + 3)))
  code k p _ :=
    let stop := p + range.size + 5 + bind.size + body.size + 3
    range.code k p stop ++ ⟨.iterRange, [binds.toNat, stop]⟩ ::
      (bind.code (k + range.pool.length) (p + range.size + 5) stop ++
        (body.code (k + range.pool.length + bind.pool.length) (p + range.size + 5 + bind.size) stop
          ++ [⟨.jump, [p + range.size]⟩]))
  breaks _ := []
  spots p h :=
    range.spots p h ++ (p + range.size, h + 1) ::
      (bind.spots (p + range.size + 5) (h + 1 + binds.toNat) ++
        (body.spots (p + range.size + 5 + bind.size) (h + 1) ++
          [(p + range.size + 5 + bind.size + body.size, h + 1)]))
  after h := h

/-- A jump out of the innermost loop, which drops the loop's iterator if there is one. -/
def brk (hasIterator : Bool) : Chunk where
  pool := []
  size := if hasIterator then 6 else 3
  code _ _ x := if hasIterator then [⟨.drop, [1]⟩, ⟨.jump, [x]⟩] else [⟨.jump, [x]⟩]
  breaks p := [if hasIterator then p + 3 else p]
  spots p h := if hasIterator then [(p, h), (p + 3, h - 1)] else [(p, h)]
  after h := h

end Chunk

/-! ### The chunks of expressions -/

mutual

/-- The code of an expression. -/
def exprChunk (sy : Symbols) : Expr → Chunk
  | .num _ x => .const (.num x)
  | .str _ s => .const (.str s)
  | .bool _ b => .instr ⟨if b then .true else .false, []⟩
  | .var _ name => .instr ⟨.getGlobal, [(sy.resolve? name).getD 0]⟩
  | .array _ _ elems => (listChunk sy elems).seq (.instr ⟨.array, [elems.length]⟩)
  | .map _ _ pairs => (pairsChunk sy pairs).seq (.instr ⟨.map, [pairs.length * 2]⟩)
  | .unary _ op operand => (exprChunk sy operand).seq (.instr ⟨opcodeOfUnary op, []⟩)
  | .binary _ op _ left right =>
    match op with
    | .and => (exprChunk sy left).andAlso (exprChunk sy right)
    | .or => (exprChunk sy left).orElse (exprChunk sy right)
    | op =>
      ((exprChunk sy left).seq (exprChunk sy right)).seq
        (.instr ⟨(opcodeOf? op left.ty.kind).getD .equal, []⟩)
  | .index _ left key => ((exprChunk sy left).seq (exprChunk sy key)).seq (.instr ⟨.index, []⟩)
  | .slice _ left start stop =>
    (((exprChunk sy left).seq (optionChunk sy start)).seq (optionChunk sy stop)).seq
      (.instr ⟨.slice, []⟩)
  | .dot _ left key => ((exprChunk sy left).seq (.const (.str key))).seq (.instr ⟨.index, []⟩)
  | .group _ inner => exprChunk sy inner
  | .any _ inner => exprChunk sy inner
  | .call .. | .assert .. => .instr ⟨.none, []⟩

def listChunk (sy : Symbols) : List Expr → Chunk
  | [] => .empty
  | e :: es => (exprChunk sy e).seq (listChunk sy es)

def pairsChunk (sy : Symbols) : List (String × Expr) → Chunk
  | [] => .empty
  | (key, e) :: es => ((Chunk.const (.str key)).seq (exprChunk sy e)).seq (pairsChunk sy es)

/-- The code of an expression that can be left out. -/
def optionChunk (sy : Symbols) : Option Expr → Chunk
  | some e => exprChunk sy e
  | none => .instr ⟨.none, []⟩

end

/-! ### The chunks of statements -/

/-- The code that stores the value on top in the slot that a variable gets. -/
def storeChunk (sy : Symbols) (name : String) : Chunk :=
  .instr ⟨.setGlobal, [(sy.define name).1]⟩

def declChunk (sy : Symbols) (var : Var) (value : Expr) : Chunk :=
  (exprChunk sy value).seq (storeChunk sy var.name)

def assignChunk (sy : Symbols) (target value : Expr) : Chunk :=
  (exprChunk sy value).seq <|
    match target with
    | .var _ name => .instr ⟨.setGlobal, [(sy.resolve? name).getD 0]⟩
    | .index _ left key => ((exprChunk sy left).seq (exprChunk sy key)).seq (.instr ⟨.setIndex, []⟩)
    | .dot _ left key => ((exprChunk sy left).seq (.const (.str key))).seq (.instr ⟨.setIndex, []⟩)
    | _ => .instr ⟨.drop, [1]⟩

def rangeChunk (sy : Symbols) : Range → Chunk
  | .step start stop stride =>
    (((optionChunk sy start).seq (exprChunk sy stop)).seq (optionChunk sy stride)).seq
      (.instr ⟨.stepRange, []⟩)
  | .over e => exprChunk sy e

/-- The code that keeps what a range gives. -/
def bindChunk (sy : Symbols) : Option Var → Chunk
  | some x => storeChunk sy x.name
  | none => .empty

/-- The slots inside a loop with the given variable. -/
def loopSymbols (sy : Symbols) : Option Var → Symbols
  | some x => (sy.nest.define x.name).2
  | none => sy.nest

mutual

/-- The slots after a statement. -/
def stmtSymbols (sy : Symbols) : Stmt → Symbols
  | .typedDecl _ _ var _ | .inferredDecl _ _ var _ => (sy.define var.name).2
  | .cond _ _ (.mk _ _ _ body) more otherwise =>
    lastSymbols (branchesSymbols (blockSymbols sy body) more) otherwise
  | .loop _ (.mk _ _ _ body) => blockSymbols sy body
  | .each _ _ var _ body => (blockSymbols (loopSymbols sy var) body).unnest
  | _ => sy

def branchesSymbols (sy : Symbols) : List Branch → Symbols
  | [] => sy
  | .mk _ _ _ body :: more => branchesSymbols (blockSymbols sy body) more

def lastSymbols (sy : Symbols) : Option Block → Symbols
  | none => sy
  | some block => blockSymbols sy block

def blockSymbols (sy : Symbols) : Block → Symbols
  | .mk _ _ stmts => (stmtsSymbols sy.nest stmts).unnest

def stmtsSymbols (sy : Symbols) : List Stmt → Symbols
  | [] => sy
  | s :: ss => stmtsSymbols (stmtSymbols sy s) ss

end

mutual

/-- The code of a statement; `hasIterator` says whether the innermost loop around it has an
iterator. -/
def stmtChunk (sy : Symbols) (hasIterator : Bool) : Stmt → Chunk
  | .empty .. => .empty
  | .typedDecl _ _ var value | .inferredDecl _ _ var value => declChunk sy var value
  | .assign _ _ target value => assignChunk sy target value
  | .cond _ _ (.mk _ _ test body) more otherwise =>
    .arm (exprChunk sy test) (blockChunk sy hasIterator body)
      (branchesChunk (blockSymbols sy body) hasIterator more
        (lastChunk (branchesSymbols (blockSymbols sy body) more) hasIterator otherwise))
  | .loop _ (.mk _ _ test body) => .loop (exprChunk sy test) (blockChunk sy false body)
  | .each _ _ var range body =>
    .each (rangeChunk sy range) var.isSome (bindChunk sy.nest var)
      (blockChunk (loopSymbols sy var) true body)
  | .brk .. => .brk hasIterator
  | .call .. | .ret .. | .func .. | .on .. => .empty

/-- The code of further branches, and `last` for the case that no condition holds. -/
def branchesChunk (sy : Symbols) (hasIterator : Bool) : List Branch → (last : Chunk) → Chunk
  | [], last => last
  | .mk _ _ test body :: more, last =>
    .arm (exprChunk sy test) (blockChunk sy hasIterator body)
      (branchesChunk (blockSymbols sy body) hasIterator more last)

def lastChunk (sy : Symbols) (hasIterator : Bool) : Option Block → Chunk
  | none => .empty
  | some block => blockChunk sy hasIterator block

def blockChunk (sy : Symbols) (hasIterator : Bool) : Block → Chunk
  | .mk _ _ stmts => stmtsChunk sy.nest hasIterator stmts

def stmtsChunk (sy : Symbols) (hasIterator : Bool) : List Stmt → Chunk
  | [] => .empty
  | s :: ss => (stmtChunk sy hasIterator s).seq (stmtsChunk (stmtSymbols sy s) hasIterator ss)

end

end TinyScript.Bytecode
