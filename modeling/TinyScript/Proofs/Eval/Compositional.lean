import TinyScript.Proofs.Eval.Runs
import TinyScript.Session

/-!
# Properties of evaluations that their parts hand on

An evaluation is put together from a few primitive steps. A property that sequences keep (`Chaining`) and
that the primitive steps of expressions have (`Sequential`) holds of every built-in function, operator and
loop. If it stays when a failure gets its place (`Compositional`), it holds of every expression. With what
blocks, bodies and declarations need besides (`StmtCompositional`) it holds of statements and calls, and
so of whole runs.
-/

namespace TinyScript

/-- Whether a step that looks up no name can fail for this cause. -/
def Cause.ofStep : Cause → Bool
  | parse _ | internal (.unboundVariable _) | internal (.unknownFunction _) => false
  | panic _ | internal _ | stopped | exit _ | userPanic _ => true

namespace Eval

/-- Sequences keep a property of evaluations. -/
structure Chaining (P : (α : Type) → Eval α → Prop) : Prop where
  pure : ∀ {α : Type} (a : α), P α (Pure.pure a)
  bind : ∀ {α β : Type} {m : Eval α} {f : α → Eval β}, P α m → (∀ a, P β (f a)) → P β (m >>= f)

/-- The primitive steps that look up no name have the property, too. -/
structure Sequential (P : (α : Type) → Eval α → Prop) : Prop extends Chaining P where
  fail : ∀ {α : Type} (c : Cause), c.ofStep → P α (Eval.fail c)
  outOfFuel : ∀ {α : Type}, P α (throw .outOfFuel)
  store : P _ Eval.store
  replaceElem : ∀ ref i v, P _ (Eval.modifyStore (·.setElem ref i v))
  modifyMap : ∀ ref f, P _ (Eval.modifyStore (·.modifyMap ref f))
  newArray : ∀ elems ty, P _ (Eval.newArray elems ty)
  newMap : ∀ pairs ty, P _ (Eval.newMap pairs ty)
  noteError : ∀ message, P _ (Builtin.noteError message)
  ask : ∀ c, P _ (Eval.ask c)
  readLine : P _ Eval.readLine
  randomly : ∀ bound, P _ (Eval.randomly bound)

/-- Look-ups of names have the property, and it makes no difference to it whether a failure gets its
place. -/
structure Compositional (P : (α : Type) → Eval α → Prop) : Prop extends Sequential P where
  lookup : ∀ name, P _ (Eval.lookup name)
  unknownFunction : ∀ {α : Type} (name : String), P α (Eval.internal (.unknownFunction name))
  located : ∀ {α : Type} {token : Token} {m : Eval α}, P α m → P α (Eval.located token m)

/-- The steps of statements have a property `Q`, and those of expressions a stronger one `P`, which
bodies of functions have that are put together from what has `Q`. -/
structure StmtCompositional (P Q : (α : Type) → Eval α → Prop) : Prop where
  expr : Compositional P
  weaken : ∀ {α : Type} {m : Eval α}, P α m → Q α m
  bind : ∀ {α β : Type} {m : Eval α} {f : α → Eval β}, Q α m → (∀ a, Q β (f a)) → Q β (m >>= f)
  located : ∀ {α : Type} {token : Token} {m : Eval α}, Q α m → Q α (Eval.located token m)
  tick : Q _ Eval.tick
  declare : ∀ name v, Q _ (Eval.modifyFrames (·.insert name v))
  assign : ∀ name v, Q _ (Eval.assign name v)
  nested : ∀ {α : Type} {m : Eval α}, Q α m → Q α (Eval.nested m)
  inBody : ∀ {α : Type} {m : Eval α}, Q α m → P α (Eval.inBody m)

/-! ### Flow and parameters -/

namespace Chaining

variable {P : (α : Type) → Eval α → Prop} (hP : Chaining P)
include hP

theorem thenRound {round : Eval Flow} (hround : P _ round) (flow : Flow) :
    P _ (flow.thenRound round) := by
  cases flow with
  | next => exact hround
  | brk => exact hP.pure _
  | ret v => exact hP.pure _

/-- The branches of a conditional, one after the other. -/
theorem orElse {m : Eval (Option Flow)} {n : Eval Flow} (hm : P _ m) (hn : P _ n) :
    P Flow (m >>= fun | some flow => Pure.pure flow | none => n) := by
  refine hP.bind hm fun o => ?_
  cases o with
  | some flow => exact hP.pure _
  | none => exact hn

section
variable (hdeclare : ∀ name v, P _ (Eval.modifyFrames (·.insert name v)))
include hdeclare

theorem bindParams (hnew : ∀ elems ty, P _ (Eval.newArray elems ty)) (sig : Signature)
    (args : List Value) : P _ (sig.bind args) := by
  unfold Signature.bind
  refine hP.bind ?_ fun _ => ?_
  · generalize sig.params.zip args = pairs
    induction pairs with
    | nil => exact hP.pure _
    | cons x pairs ih =>
      rw [List.forIn_cons]
      refine hP.bind (hP.bind (hdeclare _ _) fun _ => hP.pure _) fun step => ?_
      cases step with
      | done => exact hP.pure _
      | yield => exact ih
  · split
    · exact hP.bind (hnew _ _) fun _ => hdeclare _ _
    · exact hP.pure _

theorem bindEventParams (hd : Handler) (params : List Value)
    (hrefused : ∀ x ∈ hd.params, ∀ p, P Unit (Eval.located x.token (Eval.fail (.panic p)))) :
    P _ (hd.bind params) := by
  unfold Handler.bind
  refine hP.bind ?_ fun _ => hP.pure _
  have hzip : ∀ x ∈ hd.params.zip params, x.1 ∈ hd.params := fun _ hx => (List.of_mem_zip hx).1
  generalize hd.params.zip params = pairs at hzip
  induction pairs with
  | nil => exact hP.pure _
  | cons x pairs ih =>
    obtain ⟨hx, hpairs⟩ := List.forall_mem_cons.1 hzip
    rw [List.forIn_cons]
    refine hP.bind ?_ fun step => ?_
    · dsimp only
      split
      · exact hP.bind (hrefused _ hx _) fun _ => hP.bind (hdeclare _ _) fun _ => hP.pure _
      · exact hP.bind (hdeclare _ _) fun _ => hP.pure _
    · cases step with
      | done => exact hP.pure _
      | yield => exact ih hpairs

end

end Chaining

namespace Sequential

variable {P : (α : Type) → Eval α → Prop} (hP : Sequential P)
include hP

theorem internal {α : Type} (i : Internal) (hi : (Cause.internal i).ofStep) : P α (Eval.internal i) :=
  hP.fail _ hi

theorem badArguments {α : Type} (why : BadArguments) : P α (Eval.badArguments why) :=
  hP.fail _ rfl

theorem orPanic {α : Type} (r : Except Panic α) : P α (Eval.orPanic r) := by
  cases r with
  | ok a => exact hP.pure a
  | error p => exact hP.fail _ rfl

theorem answered {α : Type} (o : Option α) : P α (Eval.answered o) := by
  cases o with
  | some a => exact hP.pure a
  | none => exact hP.outOfFuel

theorem mapM {α β : Type} {f : α → Eval β} (hf : ∀ a, P β (f a)) (as : List α) :
    P (List β) (as.mapM f) := by
  induction as with
  | nil => exact hP.pure []
  | cons a as ih =>
    rw [List.mapM_cons]
    exact hP.bind (hf a) fun _ => hP.bind ih fun _ => hP.pure _

/-! ### Arguments -/

variable (args : List Value)

theorem arg (i : Nat) : P _ (Eval.arg args i) := by
  unfold Eval.arg
  split
  · exact hP.pure _
  · exact hP.internal _ rfl

theorem numArg (i : Nat) : P _ (Eval.numArg args i) := by
  refine hP.bind (hP.arg args i) fun v => ?_
  split
  · exact hP.pure _
  · exact hP.internal _ rfl

theorem strArg (i : Nat) : P _ (Eval.strArg args i) := by
  refine hP.bind (hP.arg args i) fun v => ?_
  split
  · exact hP.pure _
  · exact hP.internal _ rfl

theorem arrayArg (i : Nat) : P _ (Eval.arrayArg args i) := by
  refine hP.bind (hP.arg args i) fun v => ?_
  split
  · exact hP.bind hP.store fun _ => hP.pure _
  · exact hP.internal _ rfl

theorem mapArg (i : Nat) : P _ (Eval.mapArg args i) := by
  refine hP.bind (hP.arg args i) fun v => ?_
  split
  · exact hP.pure _
  · exact hP.internal _ rfl

theorem numArgs : P _ (Eval.numArgs args) :=
  hP.mapM (hP.numArg args) _

theorem formatArg (func : String) : P _ (Eval.formatArg func args) := by
  unfold Eval.formatArg
  split
  · exact hP.badArguments _
  · exact hP.pure _
  · exact hP.badArguments _

/-! ### Built-in functions -/

theorem onText (f : List Char → List Char) : P _ (Builtin.onText f args) :=
  hP.bind (hP.strArg args 0) fun _ => hP.pure _

theorem onNum (f : Float → Float) : P _ (Builtin.onNum f args) :=
  hP.bind (hP.numArg args 0) fun _ => hP.pure _

theorem onNums (f : Float → Float → Float) : P _ (Builtin.onNums f args) :=
  hP.bind (hP.numArg args 0) fun _ => hP.bind (hP.numArg args 1) fun _ => hP.pure _

theorem drawn (c : HostCall) : P _ (Builtin.drawn c) :=
  hP.bind (hP.ask c) fun _ => hP.pure _

theorem drawNum (c : Float → HostCall) : P _ (Builtin.drawNum c args) :=
  hP.bind (hP.numArg args 0) fun _ => hP.drawn _

theorem drawNums (c : Float → Float → HostCall) : P _ (Builtin.drawNums c args) :=
  hP.bind (hP.numArg args 0) fun _ => hP.bind (hP.numArg args 1) fun _ => hP.drawn _

theorem drawText (c : String → HostCall) : P _ (Builtin.drawText c args) :=
  hP.bind (hP.strArg args 0) fun _ => hP.drawn _

theorem formatted (func : String) : P _ (Builtin.formatted func args) :=
  hP.bind (hP.formatArg args func) fun _ => hP.bind hP.store fun _ => hP.answered _

theorem spaced : P _ (Builtin.spaced args) :=
  hP.bind hP.store fun _ => hP.answered _

theorem converted (b : Builtin) (convert : String → Option Value) (missing : Value) :
    P _ (Builtin.converted b convert missing args) := by
  refine hP.bind (hP.strArg args 0) fun s => ?_
  split
  · exact hP.bind (hP.noteError _) fun _ => hP.pure _
  · exact hP.bind (hP.noteError _) fun _ => hP.pure _

theorem length : P _ (Builtin.length args) := by
  refine hP.bind (hP.arg args 0) fun v => ?_
  split
  · exact hP.bind hP.store fun _ => hP.pure _
  · exact hP.bind hP.store fun _ => hP.pure _
  · exact hP.pure _
  · exact hP.badArguments _

theorem randomBelow : P _ (Builtin.randomBelow args) := by
  refine hP.bind (hP.numArg args 0) fun upper => ?_
  split
  · exact hP.bind (hP.randomly _) fun _ => hP.pure _
  · exact hP.badArguments _

theorem vertices (i : Nat) : P _ (Builtin.vertices i args) := by
  induction args generalizing i with
  | nil => exact hP.pure []
  | cons v rest ih =>
    cases v with
    | array ref ty =>
      refine hP.bind hP.store fun s => ?_
      dsimp only
      split
      · exact hP.bind (hP.badArguments _) fun _ => hP.bind (hP.numArg _ 0) fun _ =>
          hP.bind (hP.numArg _ 1) fun _ => hP.bind (ih (i + 1)) fun _ => hP.pure _
      · exact hP.bind (hP.numArg _ 0) fun _ => hP.bind (hP.numArg _ 1) fun _ =>
          hP.bind (ih (i + 1)) fun _ => hP.pure _
    | num | str | bool | any | map | none => exact hP.internal _ rfl

theorem drawEllipse : P _ (Builtin.drawEllipse args) := by
  unfold Builtin.drawEllipse
  extract_lets draw
  have hdraw (u : Unit) : P _ (draw u) := by
    refine hP.bind (hP.numArgs args) fun xs => ?_
    split
    · exact hP.drawn _
    · exact hP.drawn _
    · exact hP.drawn _
    · exact hP.drawn _
    · exact hP.badArguments _
  split
  · exact hP.bind (hP.badArguments _) hdraw
  · exact hdraw ()

theorem drawClear : P _ (Builtin.drawClear args) := by
  have hdraw : P Value (if args.isEmpty then Builtin.drawn (.clear "")
      else Builtin.drawText .clear args) := by
    split
    · exact hP.drawn _
    · exact hP.drawText args _
  unfold Builtin.drawClear
  dsimp only
  split
  · exact hP.bind (hP.badArguments _) fun _ => hdraw
  · exact hdraw

theorem setFont : P _ (Builtin.setFont args) := by
  refine hP.bind (hP.mapArg args 0) fun ref => hP.bind hP.store fun s => ?_
  split
  · exact hP.drawn _
  · exact hP.badArguments _

/-- Every call of a built-in function. -/
theorem builtin (b : Builtin) : P _ (b.call args) := by
  cases b with
  | read => exact hP.bind hP.readLine fun _ => hP.pure _
  | cls | grid => exact hP.drawn _
  | print => exact hP.bind (hP.spaced args) fun _ => hP.drawn _
  | printf => exact hP.bind (hP.formatted args _) fun _ => hP.drawn _
  | sprint => exact hP.bind (hP.spaced args) fun _ => hP.pure _
  | sprintf => exact hP.bind (hP.formatted args _) fun _ => hP.pure _
  | join =>
    exact hP.bind (hP.arrayArg args 0) fun _ => hP.bind (hP.strArg args 1) fun _ =>
      hP.bind hP.store fun _ => hP.bind (hP.answered _) fun _ => hP.pure _
  | split =>
    exact hP.bind (hP.strArg args 0) fun _ => hP.bind (hP.strArg args 1) fun _ => hP.newArray _ _
  | upper | lower => exact hP.onText args _
  | index | startsWith | endsWith =>
    exact hP.bind (hP.strArg args 0) fun _ => hP.bind (hP.strArg args 1) fun _ => hP.pure _
  | trim => exact hP.bind (hP.strArg args 1) fun _ => hP.onText args _
  | replace =>
    exact hP.bind (hP.strArg args 0) fun _ => hP.bind (hP.strArg args 1) fun _ =>
      hP.bind (hP.strArg args 2) fun _ => hP.pure _
  | strToNum | strToBool => exact hP.converted args _ _ _
  | typeName => exact hP.bind (hP.arg args 0) fun _ => hP.pure _
  | len => exact hP.length args
  | has =>
    exact hP.bind (hP.mapArg args 0) fun _ => hP.bind (hP.strArg args 1) fun _ =>
      hP.bind hP.store fun _ => hP.pure _
  | del =>
    exact hP.bind (hP.mapArg args 0) fun _ => hP.bind (hP.strArg args 1) fun _ =>
      hP.bind (hP.modifyMap _ _) fun _ => hP.pure _
  | exit => exact hP.bind (hP.numArg args 0) fun _ => hP.fail _ rfl
  | panic => exact hP.bind (hP.strArg args 0) fun _ => hP.fail _ rfl
  | rand => exact hP.randomBelow args
  | rand1 => exact hP.bind (hP.randomly _) fun _ => hP.pure _
  | min | max | pow | atan2 => exact hP.onNums args _
  | floor | ceil | round | log | sqrt | sin | cos => exact hP.onNum args _
  | move | line | rect => exact hP.drawNums args _
  | sleep | circle | width => exact hP.drawNum args _
  | color | colour | stroke | fill | linecap | text => exact hP.drawText args _
  | clear => exact hP.drawClear args
  | gridn => exact hP.bind (hP.numArg args 0) fun _ => hP.bind (hP.strArg args 1) fun _ => hP.drawn _
  | poly => exact hP.bind (hP.vertices args 1) fun _ => hP.drawn _
  | ellipse => exact hP.drawEllipse args
  | dash => exact hP.bind (hP.numArgs args) fun _ => hP.drawn _
  | font => exact hP.setFont args

/-! ### Operators -/

omit args

theorem resultOr (op : BinaryOp) (operand : String) (v : Option Value) :
    P _ (op.resultOr operand v) := by
  cases v with
  | some v => exact hP.pure v
  | none => exact hP.internal _ rfl

theorem binaryOp (op : BinaryOp) (v w : Value) : P _ (op.eval v w) := by
  unfold BinaryOp.eval
  split
  · exact hP.bind hP.store fun _ => hP.bind (hP.answered _) fun _ => hP.pure _
  · exact hP.bind hP.store fun _ => hP.bind (hP.answered _) fun _ => hP.pure _
  · exact hP.resultOr _ _ _
  · exact hP.resultOr _ _ _
  · exact hP.resultOr _ _ _
  · exact hP.bind hP.store fun _ => hP.newArray _ _
  · exact hP.internal _ rfl

theorem unaryOp (op : UnaryOp) (v : Value) : P _ (op.eval v) := by
  unfold UnaryOp.eval
  split
  · exact hP.pure _
  · exact hP.pure _
  · exact hP.bind hP.store fun _ => hP.bind (hP.answered _) fun _ => hP.internal _ rfl

theorem elementAt (v key : Value) : P _ (v.at key) := by
  unfold Value.at
  split
  · exact hP.bind hP.store fun _ => hP.orPanic _
  · exact hP.orPanic _
  · exact hP.bind hP.store fun _ => hP.orPanic _
  · exact hP.internal _ rfl

theorem slice (v : Value) (start stop : Option Float) : P _ (v.slice start stop) := by
  unfold Value.slice
  split
  · exact hP.bind hP.store fun _ => hP.bind (hP.orPanic _) fun _ => hP.newArray _ _
  · exact hP.orPanic _
  · exact hP.internal _ rfl

theorem field (v : Value) (key : String) : P _ (v.field key) := by
  unfold Value.field
  split
  · exact hP.bind hP.store fun _ => hP.orPanic _
  · exact hP.internal _ rfl

theorem asserted (v : Value) (expected : Ty) : P _ (v.asserted expected) := by
  unfold Value.asserted
  split
  · split
    · exact hP.pure _
    · exact hP.fail _ rfl
  · exact hP.internal _ rfl

theorem number (v : Value) : P _ v.number := by
  unfold Value.number
  split
  · exact hP.pure _
  · exact hP.internal _ rfl

theorem setElem (ref : Nat) (x : Float) (v : Value) : P _ (Eval.setElem ref x v) :=
  hP.bind hP.store fun _ => hP.bind (hP.orPanic _) fun _ => hP.replaceElem _ _ _

theorem setField (ref : Nat) (key : String) (v : Value) : P _ (Eval.setField ref key v) :=
  hP.modifyMap _ _

/-! ### Loops -/

theorem whileLoop {round : Eval (Option Flow)} (hround : P _ round) (fuel : Nat) :
    P _ (Eval.whileLoop round fuel) := by
  induction fuel with
  | zero => exact hP.outOfFuel
  | succ fuel ih =>
    refine hP.bind hround fun o => ?_
    cases o with
    | none => exact hP.pure _
    | some flow => exact hP.thenRound ih flow

section
variable {round : Value → Eval Flow} (hround : ∀ v, P _ (round v))
include hround

theorem countLoop (stop step : Float) (fuel : Nat) (x : Float) :
    P _ (Eval.countLoop round stop step fuel x) := by
  induction fuel generalizing x with
  | zero => exact hP.outOfFuel
  | succ fuel ih =>
    unfold Eval.countLoop
    split
    · exact hP.bind (hround _) fun flow => hP.thenRound (ih _) flow
    · exact hP.pure _

theorem arrayLoop (ref fuel i : Nat) : P _ (Eval.arrayLoop round ref fuel i) := by
  induction fuel generalizing i with
  | zero => exact hP.outOfFuel
  | succ fuel ih =>
    refine hP.bind hP.store fun s => ?_
    split
    · exact hP.bind (hround _) fun flow => hP.thenRound (ih _) flow
    · exact hP.pure _

theorem textLoop (cs : List Char) : P _ (Eval.textLoop round cs) := by
  induction cs with
  | nil => exact hP.pure _
  | cons c cs ih => exact hP.bind (hround _) fun flow => hP.thenRound ih flow

theorem mapLoop (ref : Nat) (keys : List String) : P _ (Eval.mapLoop round ref keys) := by
  induction keys with
  | nil => exact hP.pure _
  | cons key keys ih =>
    refine hP.bind hP.store fun s => ?_
    split
    · exact hP.bind (hround _) fun flow => hP.thenRound ih flow
    · exact ih

end

end Sequential

/-! ### Expressions -/

namespace Compositional

variable {P : (α : Type) → Eval α → Prop} (hP : Compositional P)
include hP

variable {invoke : Invoke}

mutual

theorem eval (hinvoke : ∀ name args, P _ (invoke name args)) (e : Expr) : P _ (e.eval invoke) := by
  match e with
  | .var m name => exact hP.located (hP.lookup name)
  | .num m x => exact hP.pure _
  | .str m s => exact hP.pure _
  | .bool m b => exact hP.pure _
  | .array m layout elems => exact hP.located (hP.bind (evalList hinvoke elems #[]) fun _ => hP.newArray _ _)
  | .map m layout pairs => exact hP.located (hP.bind (evalPairs hinvoke pairs .empty) fun _ => hP.newMap _ _)
  | .call m name args result =>
    exact hP.located (hP.bind (evalList hinvoke args #[]) fun _ => hinvoke _ _)
  | .unary m op operand => exact hP.located (hP.bind (eval hinvoke operand) fun _ => hP.unaryOp _ _)
  | .binary m op tight left right =>
    refine hP.located (hP.bind (eval hinvoke left) fun v => ?_)
    split
    · exact hP.pure _
    · exact hP.bind (eval hinvoke right) fun _ => hP.binaryOp _ _ _
  | .index m left key =>
    exact hP.located (hP.bind (eval hinvoke left) fun _ => hP.bind (eval hinvoke key) fun _ => hP.elementAt _ _)
  | .slice m left start stop =>
    exact hP.located (hP.bind (eval hinvoke left) fun _ => hP.bind (evalNumber? hinvoke start) fun _ =>
      hP.bind (evalNumber? hinvoke stop) fun _ => hP.slice _ _ _)
  | .dot m left key => exact hP.located (hP.bind (eval hinvoke left) fun _ => hP.field _ _)
  | .group m inner => exact hP.located (eval hinvoke inner)
  | .assert m left => exact hP.located (hP.bind (eval hinvoke left) fun _ => hP.asserted _ _)
  | .any m inner => exact hP.located (hP.bind (eval hinvoke inner) fun _ => hP.pure _)

theorem evalList (hinvoke : ∀ name args, P _ (invoke name args)) (es : List Expr) (done : Array Value) :
    P _ (Expr.evalList invoke done es) := by
  match es with
  | [] => exact hP.pure _
  | e :: es => exact hP.bind (eval hinvoke e) fun _ => evalList hinvoke es _

theorem evalPairs (hinvoke : ∀ name args, P _ (invoke name args)) (es : List (String × Expr))
    (done : Pairs Value) :
    P _ (Expr.evalPairs invoke done es) := by
  match es with
  | [] => exact hP.pure _
  | (key, e) :: es => exact hP.bind (eval hinvoke e) fun _ => evalPairs hinvoke es _

theorem evalNumber? (hinvoke : ∀ name args, P _ (invoke name args)) (e : Option Expr) :
    P _ (Expr.evalNumber? invoke e) := by
  match e with
  | none => exact hP.pure _
  | some e => exact hP.bind (eval hinvoke e) fun _ => hP.bind (hP.located (hP.number _)) fun _ => hP.pure _

end

theorem evalNumber (hinvoke : ∀ name args, P _ (invoke name args)) (e : Expr) : P _ (e.evalNumber invoke) :=
  hP.bind (hP.eval hinvoke e) fun _ => hP.located (hP.number _)

end Compositional

/-! ### Statements -/

namespace StmtCompositional

variable {P Q : (α : Type) → Eval α → Prop} (h : StmtCompositional P Q)
include h

theorem sequential : Sequential Q where
  pure a := h.weaken (h.expr.pure a)
  bind := h.bind
  fail c hc := h.weaken (h.expr.fail c hc)
  outOfFuel := h.weaken h.expr.outOfFuel
  store := h.weaken h.expr.store
  replaceElem ref i v := h.weaken (h.expr.replaceElem ref i v)
  modifyMap ref f := h.weaken (h.expr.modifyMap ref f)
  newArray elems ty := h.weaken (h.expr.newArray elems ty)
  newMap pairs ty := h.weaken (h.expr.newMap pairs ty)
  noteError message := h.weaken (h.expr.noteError message)
  ask c := h.weaken (h.expr.ask c)
  readLine := h.weaken h.expr.readLine
  randomly bound := h.weaken (h.expr.randomly bound)

theorem pure {α : Type} (a : α) : Q α (Pure.pure a) :=
  h.sequential.pure a

theorem condition (token : Token) (v : Value) : Q _ (Eval.condition token v) := by
  refine h.weaken ?_
  unfold Eval.condition
  split
  · exact h.expr.pure _
  · exact h.expr.located (h.expr.internal _ rfl)

theorem declareVar (var : Var) (v : Value) : Q _ (Eval.declare var v) :=
  h.bind (h.declare _ _) fun _ => h.pure _

theorem bindLoopVar (var : Option Var) (v : Value) : Q _ (Eval.bindLoopVar var v) := by
  cases var with
  | some x => exact h.declare _ _
  | none => exact h.pure _

theorem statement {m : Eval Flow} (token : Token) (hm : Q _ m) : Q _ (Eval.statement token m) :=
  h.bind h.tick fun _ => h.located hm

theorem bindEventParams (hd : Handler) (params : List Value) : Q _ (hd.bind params) :=
  h.sequential.bindEventParams h.declare hd params fun _ _ _ =>
    h.weaken (h.expr.located (h.expr.fail _ rfl))

section
variable {invoke : Invoke} (hinvoke : ∀ name args, P _ (invoke name args)) (fuel : Nat)
include hinvoke

theorem eval (e : Expr) : Q _ (e.eval invoke) :=
  h.weaken (h.expr.eval hinvoke e)

theorem evalNumber (e : Expr) : Q _ (e.evalNumber invoke) :=
  h.weaken (h.expr.evalNumber hinvoke e)

theorem evalNumberOr (e : Option Expr) (missing : Float) :
    Q _ (Expr.evalNumberOr invoke missing e) := by
  cases e with
  | some e => exact h.evalNumber hinvoke e
  | none => exact h.pure _

theorem assignTo (target : Expr) (v : Value) : Q _ (target.assign invoke v) := by
  cases target with
  | var m name => exact h.assign name v
  | index m left key =>
    refine h.bind (h.eval hinvoke left) fun l => h.bind (h.eval hinvoke key) fun k => ?_
    split
    · exact h.weaken (h.expr.located (h.expr.setElem _ _ _))
    · exact h.weaken (h.expr.setField _ _ _)
    · exact h.weaken (h.expr.internal _ rfl)
  | dot m left key =>
    refine h.bind (h.eval hinvoke left) fun l => ?_
    split
    · exact h.weaken (h.expr.setField _ _ _)
    · exact h.weaken (h.expr.internal _ rfl)
  | num | str | bool | array | map | call | unary | binary | slice | group | assert | any =>
    exact h.weaken (h.expr.internal _ rfl)

theorem range (range : Range) {round : Value → Eval Flow} (hround : ∀ v, Q _ (round v)) :
    Q _ (range.run invoke fuel round) := by
  match range with
  | .step start stop stride =>
    rw [Range.run_step]
    refine h.bind (h.evalNumberOr hinvoke start _) fun x => h.bind (h.evalNumber hinvoke stop)
      fun last => h.bind (h.evalNumberOr hinvoke stride _) fun step => ?_
    split
    · exact h.weaken (h.expr.located (h.expr.fail _ rfl))
    · exact h.sequential.countLoop hround _ _ _ _
  | .over e =>
    refine h.bind (h.eval hinvoke e) fun v => ?_
    split
    · exact h.sequential.arrayLoop hround _ _ _
    · exact h.sequential.textLoop hround _
    · exact h.bind (h.weaken h.expr.store) fun _ => h.sequential.mapLoop hround _ _
    · exact h.weaken (h.expr.located (h.expr.internal _ rfl))

end

section
variable {invoke : Invoke} (fuel : Nat)

mutual

theorem run (hinvoke : ∀ name args, P _ (invoke name args)) (s : Stmt) : Q _ (s.run invoke fuel) := by
  match s with
  | .empty .. | .func .. | .on .. => exact h.statement _ (h.pure _)
  | .typedDecl token comment var value | .inferredDecl token comment var value =>
    exact h.statement _ (h.bind (h.eval hinvoke value) fun _ => h.declareVar _ _)
  | .assign token comment target value =>
    exact h.statement _ (h.bind (h.eval hinvoke value) fun _ =>
      h.bind (h.assignTo hinvoke target _) fun _ => h.pure _)
  | .call token comment name args ty =>
    exact h.statement _ (h.bind (h.weaken (h.expr.evalList hinvoke args #[])) fun _ =>
      h.bind (h.weaken (hinvoke _ _)) fun _ => h.pure _)
  | .brk token comment => exact h.statement _ (h.pure _)
  | .ret token comment none => exact h.statement _ (h.pure _)
  | .ret token comment (some value) =>
    exact h.statement _ (h.bind (h.eval hinvoke value) fun _ => h.pure _)
  | .cond token comment first more none =>
    exact h.statement _ (h.sequential.orElse (branch hinvoke first)
      (h.sequential.orElse (branches hinvoke more) (h.pure _)))
  | .cond token comment first more (some b) =>
    exact h.statement _ (h.sequential.orElse (branch hinvoke first)
      (h.sequential.orElse (branches hinvoke more) (block hinvoke b)))
  | .loop token b => exact h.statement _ (h.sequential.whileLoop (branch hinvoke b) fuel)
  | .each token comment var range body =>
    exact h.statement _ (h.nested (h.range hinvoke fuel range fun v =>
      h.bind (h.bindLoopVar var v) fun _ => block hinvoke body))

theorem branch (hinvoke : ∀ name args, P _ (invoke name args)) (b : Branch) : Q _ (b.run invoke fuel) := by
  match b with
  | .mk token comment test body =>
    refine h.bind (h.eval hinvoke test) fun v => h.bind (h.condition _ v) fun holds => ?_
    split
    · exact h.bind (block hinvoke body) fun _ => h.pure _
    · exact h.pure _

theorem branches (hinvoke : ∀ name args, P _ (invoke name args)) (bs : List Branch) :
    Q _ (Branch.runFirst invoke fuel bs) := by
  match bs with
  | [] => exact h.pure _
  | b :: bs =>
    refine h.bind (branch hinvoke b) fun o => ?_
    cases o with
    | some flow => exact h.pure _
    | none => exact branches hinvoke bs

theorem block (hinvoke : ∀ name args, P _ (invoke name args)) (b : Block) : Q _ (b.run invoke fuel) := by
  match b with
  | .mk token comment stmts => exact h.nested (runAll hinvoke stmts)

theorem runAll (hinvoke : ∀ name args, P _ (invoke name args)) (ss : List Stmt) :
    Q _ (Stmt.runAll invoke fuel ss) := by
  match ss with
  | [] => exact h.pure _
  | s :: ss =>
    refine h.bind (run hinvoke s) fun flow => ?_
    cases flow with
    | next => exact runAll hinvoke ss
    | ret v => exact h.pure _
    | brk => exact h.pure _

end

theorem call (hinvoke : ∀ name args, P _ (invoke name args)) (f : Function) (args : List Value) :
    P _ (f.call invoke fuel args) := by
  refine h.inBody (h.bind (h.sequential.bindParams h.declare h.sequential.newArray f.signature args) fun _ =>
    h.bind (h.runAll fuel hinvoke f.body.stmts) fun flow => ?_)
  split
  · exact h.pure _
  · exact h.pure _

end

/-! ### Calls and runs -/

/-- Every call, by induction on the depth of calls. -/
theorem invoke (funcs : List Function) (fuel : Nat) (name : String) (args : List Value) :
    P _ (TinyScript.invoke funcs fuel name args) := by
  induction fuel generalizing name args with
  | zero =>
    unfold TinyScript.invoke
    split
    · exact h.expr.builtin args _
    · split
      · exact h.expr.unknownFunction _
      · exact h.expr.outOfFuel
  | succ fuel ih =>
    unfold TinyScript.invoke
    split
    · exact h.expr.builtin args _
    · split
      · exact h.expr.unknownFunction _
      · exact h.call fuel ih _ args

theorem program (p : Program) (fuel : Nat) : Q _ (p.run fuel) :=
  h.bind (h.runAll fuel (h.invoke p.funcs fuel) p.stmts) fun _ => h.pure _

theorem handler (hd : Handler) (funcs : List Function) (fuel : Nat) (params : List Value) :
    P _ (hd.run funcs fuel params) :=
  h.inBody (h.bind (h.bindEventParams hd params) fun _ =>
    h.bind (h.runAll fuel (h.invoke funcs fuel) hd.body.stmts) fun _ => h.pure _)

/-- What an interpreter does with an event. -/
theorem handle (i : Interpreter) (w : World) (event : String) (params : List Value) (fuel : Nat) :
    ∃ m, P Unit m ∧ i.handle w event params fuel = i.eval w m := by
  refine ⟨_, ?_, rfl⟩
  extract_lets answer
  have hanswer (u : Unit) : P Unit (answer u) := by
    dsimp only [answer]
    split
    · exact h.expr.internal _ rfl
    · next hd _ =>
      split
      · exact h.expr.bind (h.expr.internal _ rfl) fun _ => h.handler hd i.funcs fuel params
      · exact h.handler hd i.funcs fuel params
  split
  · exact h.expr.bind (h.expr.fail .stopped rfl) hanswer
  · exact hanswer ()

end StmtCompositional

end Eval

end TinyScript
