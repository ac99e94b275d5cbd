import TinyScript.Proofs.Simulation.Rounds

/-!
# Statements are matched by their code

Where the chunk of a checked and fitted statement without `any` is loaded, the machine does what the run of
the statement does (`Stmt.runs_run`), and so for the statements of a program (`Stmt.runs_runAll`).
-/

namespace TinyScript.Bytecode
open Symbols (SameNames SameOutside)

namespace Chunk

theorem add_size_arm (c d e : Chunk) (p : Nat) :
    p + (c.arm d e).size = p + c.size + 3 + d.size + 3 + e.size := by
  simp only [arm, Nat.add_assoc]

theorem add_size_loop (c d : Chunk) (p : Nat) : p + (c.loop d).size = p + c.size + 3 + d.size + 3 := by
  simp only [loop, Nat.add_assoc]

theorem add_size_each (c : Chunk) (binds : Bool) (d e : Chunk) (p : Nat) :
    p + (c.each binds d e).size = p + c.size + 5 + d.size + e.size + 3 := by
  simp only [each, Nat.add_assoc]

end Chunk

theorem inside_stmtSymbols (sy : Symbols) (s : Stmt) : Inside sy (stmtSymbols sy s) := by
  cases hs : s.declared? with
  | none => exact .of_sameNames (stmtSymbols_sameNames sy s hs)
  | some v => exact fun hsy => stmtSymbols_of_declared hs ▸ Symbols.sameOutside_define hsy v.name

/-- Only names matter for where code runs. -/
theorem Runs.of_sameNames {a : Assembly} {G : Vars} {L : List Scoping} {sy sy' sy'' : Symbols} {it : Bool}
    {p q x : Nat} {m : Eval Flow} (hs : SameNames sy sy')
    (h : Runs a G L sy (SameNames sy) sy'' it p q x m) :
    Runs a G L sy' (SameNames sy') sy'' it p q x m :=
  fun Θ σ g st stack hit hσ =>
    (h Θ σ g st stack hit ⟨hσ.typed, hσ.inStep.of_sameNames hs.symm⟩).mono
      fun _ _ _ h => h.mono (fun _ => hs.symm.trans) (.refl _)

theorem Stmt.run_cond {invoke : Invoke} {fuel : Nat} {token : Token} {comment : Option String} {first : Branch}
    {more : List Branch} {otherwise : Option Block} :
    Stmt.run invoke fuel (.cond token comment first more otherwise) = Eval.statement token
      (first.run invoke fuel >>= fun o => match o with
        | some flow => pure flow
        | none => Branch.runFirst invoke fuel more >>= fun o => match o with
          | some flow => pure flow
          | none => otherwise.elim (pure .next) (Block.run invoke fuel)) := by
  cases otherwise <;> rfl

section
variable {F : Sigs} {G : Vars} {invoke : Invoke} {fuel : Nat} {result : Option Ty} {a : Assembly}

mutual

theorem Stmt.runs_run (hinvoke : SafeInvoke F G invoke) {L : List Scoping} {inLoop it : Bool}
    {sy : Symbols} {k p x : Nat} (s : Stmt)
    (hc : s.Checked F G result L inLoop) (hf : s.fitted F (result.getD .none)) (hany : s.anyFree)
    (hcode : s.Codable sy) (hsy : sy.FromEdits) (hload : (stmtChunk sy it s).Loaded a k p x) :
    Runs a G L sy (SameNames sy) (stmtSymbols sy s) it p (p + (stmtChunk sy it s).size) x
      (s.run invoke fuel) := by
  match s with
  | .empty token comment =>
    simp only [stmtSymbols, stmtChunk]
    exact .statement .next
  | .typedDecl token comment var value | .inferredDecl token comment var value =>
    obtain ⟨hc, -⟩ := hc
    simp only [Stmt.fitted, Bool.and_eq_true] at hf
    simp only [Stmt.anyFree, Bool.and_eq_true] at hany
    rw [stmtChunk, declChunk] at hload ⊢
    rw [stmtSymbols, Chunk.add_size_seq]
    obtain ⟨hvalue, hstore⟩ := hload.seq (closed_exprChunk sy value).regular
    exact .statement (.declare hsy hany.1
      (fun g => Expr.computes_eval hinvoke value hc hf.2 hany.2 hcode hvalue) hstore.instr)
  | .assign token comment target value =>
    obtain ⟨hcv, hct, ht⟩ := hc
    simp only [Stmt.fitted, Bool.and_eq_true] at hf
    simp only [Stmt.anyFree, Bool.and_eq_true] at hany
    rw [stmtChunk, assignChunk_eq] at hload ⊢
    simp only [stmtSymbols]
    rw [Chunk.add_size_seq]
    obtain ⟨hvalue, htarget⟩ := hload.seq (closed_exprChunk sy value).regular
    exact .statement (.assign hinvoke hct ht hf.2 hany.1 hcode.2 hsy
      (fun g => Expr.computes_eval hinvoke value hcv hf.1.2 hany.2 hcode.1 hvalue) htarget)
  | .brk token comment =>
    rw [stmtChunk] at hload
    exact .statement (.brk hload (.refl sy))
  | .cond token comment first more otherwise =>
    obtain ⟨btoken, bcomment, test, body⟩ := first
    obtain ⟨⟨hct, hty, hcb⟩, hcm, hcl⟩ := hc
    simp only [Stmt.fitted, Branch.fitted, Bool.and_eq_true] at hf
    simp only [Stmt.anyFree, Branch.anyFree, Bool.and_eq_true] at hany
    obtain ⟨⟨⟨hft, hfb⟩, hfm⟩, hfl⟩ := hf
    obtain ⟨⟨⟨hat, hab⟩, ham⟩, hal⟩ := hany
    obtain ⟨hcodet, hcodeb, hcodem, hcodel⟩ := hcode
    rw [stmtChunk] at hload ⊢
    rw [Stmt.run_cond, stmtSymbols, Chunk.add_size_arm]
    obtain ⟨htest, hskip, hbody, hjump, hmore⟩ :=
      hload.arm (closed_exprChunk sy test) (regular_blockChunk sy it body)
    have hs₁ := blockSymbols_sameNames sy body
    have hs₂ := branchesSymbols_sameNames (blockSymbols sy body) more
    have hs₃ := lastSymbols_sameNames (branchesSymbols (blockSymbols sy body) more) otherwise
    exact .statement (.arm _ _ hty (fun g => Expr.computes_eval hinvoke test hct hft hat hcodet htest) hskip
      (Block.runs_run hinvoke body hcb hfb hab hcodeb hsy hbody) hjump (hs₂.trans hs₃) (.of_sameNames hs₁.symm
        (Branch.runs_orElse hinvoke more hcm hfm ham hcodem (hsy.block body) (hs₂.trans hs₃) hmore
          fun k p hlast => .of_sameNames hs₂.symm (Block.runs_last hinvoke otherwise hcl hfl hal hcodel
            ((hsy.block body).branches more) hlast))))
  | .loop token branch =>
    obtain ⟨btoken, bcomment, test, body⟩ := branch
    obtain ⟨hct, hty, hcb⟩ := hc
    have hsafe (Θ : StoreTy) : Safe Θ G L ((Branch.mk btoken bcomment test body).run invoke fuel) _ :=
      Branch.safe_run hinvoke _ ⟨hct, hty, hcb⟩ hf
    simp only [Stmt.fitted, Branch.fitted, Bool.and_eq_true] at hf
    simp only [Stmt.anyFree, Branch.anyFree, Bool.and_eq_true] at hany
    rw [stmtChunk] at hload ⊢
    rw [stmtSymbols, Chunk.add_size_loop]
    obtain ⟨htest, hskip, hbody, hjump⟩ :=
      hload.loop (closed_exprChunk sy test) (regular_blockChunk sy false body)
    have hbody := Block.runs_run hinvoke body hcb hf.2 hany.2 hcode.2 hsy hbody
    exact .statement (.whileLoop (fun Θ σ g st stack hσ => matches_branch hty
      (fun g => Expr.computes_eval hinvoke test hct hf.1 hany.1 hcode.1 htest) hskip hbody hjump
      (Nat.zero_le _) hσ) hsafe (blockSymbols_sameNames sy body) fuel)
  | .each token comment var range body =>
    obtain ⟨hcr, hcb⟩ := hc
    simp only [Stmt.fitted, Bool.and_eq_true] at hf
    simp only [Stmt.anyFree, Bool.and_eq_true] at hany
    have hs : SameNames sy (stmtSymbols sy (.each token comment var range body)) :=
      stmtSymbols_sameNames sy _ rfl
    rw [stmtChunk] at hload ⊢
    rw [Chunk.add_size_each]
    obtain ⟨hrange, hiter, hbind, hbody, hjump⟩ := hload.each (closed_rangeChunk sy range)
      (closed_bindChunk sy.nest var) (regular_blockChunk (loopSymbols sy var) true body)
    exact .statement (.each hinvoke hs hcr hf.1 hany.1.2 hcode.1 hrange hiter fun stack =>
      rounds_block hsy hbind (Block.runs_run hinvoke body hcb hf.2 hany.2 hcode.2 (hsy.loop var) hbody)
        (fun Θ => Block.safe_run hinvoke body hcb hf.2) (blockSymbols_sameNames _ body) hjump)
  | .call .. | .ret .. | .func .. | .on .. => exact False.elim hcode

theorem Branch.runs_orElse (hinvoke : SafeInvoke F G invoke) {L : List Scoping} {inLoop it : Bool}
    {sy sy' : Symbols} {k p x : Nat}
    {last : Chunk} {rest : Eval Flow} (bs : List Branch) (hc : Branch.AllChecked F G result L inLoop bs)
    (hf : Branch.allFitted F (result.getD .none) bs) (hany : Branch.allAnyFree bs)
    (hcode : Branch.AllCodable sy bs) (hsy : sy.FromEdits) (hs : SameNames sy sy')
    (hload : (branchesChunk sy it bs last).Loaded a k p x)
    (hrest : ∀ k p, last.Loaded a k p x → Runs a G L sy (SameNames sy) sy' it p (p + last.size) x rest) :
    Runs a G L sy (SameNames sy) sy' it p (p + (branchesChunk sy it bs last).size) x
      (Branch.runFirst invoke fuel bs >>= fun o => match o with
        | some flow => pure flow
        | none => rest) := by
  match bs with
  | [] =>
    rw [branchesChunk] at hload ⊢
    exact hrest k p hload
  | .mk token comment test body :: more =>
    obtain ⟨⟨hct, hty, hcb⟩, hcm⟩ := hc
    simp only [Branch.allFitted, Branch.fitted, Bool.and_eq_true] at hf
    simp only [Branch.allAnyFree, Branch.anyFree, Bool.and_eq_true] at hany
    obtain ⟨hcodet, hcodeb, hcodem⟩ := hcode
    rw [branchesChunk] at hload ⊢
    rw [Chunk.add_size_arm]
    obtain ⟨htest, hskip, hbody, hjump, hmore⟩ :=
      hload.arm (closed_exprChunk sy test) (regular_blockChunk sy it body)
    have hbs := blockSymbols_sameNames sy body
    have hs' := hbs.symm.trans hs
    have harm := Runs.arm token comment hty
      (fun g => Expr.computes_eval hinvoke test hct hf.1.1 hany.1.1 hcodet htest) hskip
      (Block.runs_run hinvoke body hcb hf.1.2 hany.1.2 hcodeb hsy hbody) hjump hs' (.of_sameNames hbs.symm
        (Branch.runs_orElse hinvoke more hcm hf.2 hany.2 hcodem (hsy.block body) hs' hmore
          fun k p hlast => .of_sameNames hbs (hrest k p hlast)))
    rw [Branch.runFirst, bind_assoc]
    convert harm using 3 with o
    cases o <;> rfl

theorem Block.runs_last (hinvoke : SafeInvoke F G invoke) {L : List Scoping} {inLoop it : Bool}
    {sy : Symbols} {k p x : Nat} (b : Option Block)
    (hc : Block.LastChecked F G result L inLoop b) (hf : Block.lastFitted F (result.getD .none) b)
    (hany : Block.lastAnyFree b) (hcode : Block.LastCodable sy b) (hsy : sy.FromEdits)
    (hload : (lastChunk sy it b).Loaded a k p x) :
    Runs a G L sy (SameNames sy) (lastSymbols sy b) it p (p + (lastChunk sy it b).size) x
      (b.elim (pure .next) (Block.run invoke fuel)) := by
  match b with
  | none =>
    simp only [lastSymbols, lastChunk]
    exact .next
  | some block =>
    simp only [lastSymbols, lastChunk] at hload ⊢
    exact Block.runs_run hinvoke block hc hf hany hcode hsy hload

theorem Block.runs_run (hinvoke : SafeInvoke F G invoke) {L : List Scoping} {inLoop it : Bool}
    {sy : Symbols} {k p x : Nat} (b : Block)
    (hc : b.Checked F G result L inLoop) (hf : b.fitted F (result.getD .none)) (hany : b.anyFree)
    (hcode : b.Codable sy) (hsy : sy.FromEdits) (hload : (blockChunk sy it b).Loaded a k p x) :
    Runs a G L sy (SameNames sy) (blockSymbols sy b) it p (p + (blockChunk sy it b).size) x
      (b.run invoke fuel) := by
  match b with
  | .mk token comment stmts =>
    rw [blockChunk] at hload ⊢
    rw [blockSymbols]
    exact .nested (Stmt.runs_runAll hinvoke stmts hc hf hany hcode hsy.nest hload)
      (stmtsSymbols_sameOutside sy.nest (List.cons_ne_nil _ _) stmts)

theorem Stmt.runs_runAll (hinvoke : SafeInvoke F G invoke) {L : List Scoping} {inLoop it : Bool}
    {sy : Symbols} {k p x : Nat} (ss : List Stmt)
    (hc : Stmt.AllChecked F G result L inLoop ss) (hf : Stmt.allFitted F (result.getD .none) ss)
    (hany : Stmt.allAnyFree ss) (hcode : Stmt.AllCodable sy ss) (hsy : sy.FromEdits)
    (hload : (stmtsChunk sy it ss).Loaded a k p x) :
    Runs a G L sy (Inside sy) (stmtsSymbols sy ss) it p (p + (stmtsChunk sy it ss).size) x
      (Stmt.runAll invoke fuel ss) := by
  match ss with
  | [] =>
    rw [stmtsSymbols, stmtsChunk]
    exact .next
  | s :: ss =>
    simp only [Stmt.allFitted, Bool.and_eq_true] at hf
    simp only [Stmt.allAnyFree, Bool.and_eq_true] at hany
    rw [stmtsChunk] at hload ⊢
    rw [stmtsSymbols, Chunk.add_size_seq]
    obtain ⟨hfirst, hrest⟩ := hload.seq (regular_stmtChunk sy it s)
    exact .andThen (Stmt.runs_run hinvoke s hc.1 hf.1 hany.1 hcode.1 hsy hfirst)
      (fun Θ => Stmt.safe_run hinvoke s hc.1 hf.1) (inside_stmtSymbols sy s)
      (Stmt.runs_runAll hinvoke ss hc.2 hf.2 hany.2 hcode.2 (hsy.stmt s) hrest)

end

variable (hinvoke : SafeInvoke F G invoke)
include hinvoke

end

end TinyScript.Bytecode
