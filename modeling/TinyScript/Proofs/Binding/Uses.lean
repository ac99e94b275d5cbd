import TinyScript.Proofs.Binding.Closed

/-!
# Reads and writes of variables

What the statements of a program do with its variables (`Stmt.uses`), from the scopes of the text alone.
Declarations are numbered in the order of the text, and a use has the number of the nearest declaration
around it. In a closed program, what has no number is a variable of the host.

Only statements that have code are gone through. The value of a declaration or an assignment comes before
the variable, since it is computed first.
-/

namespace TinyScript

/-- The declarations around a place, the nearest one first: names, with the numbers of the declarations. -/
abbrev Sites := List (String × Nat)

/-- A read or a write of a variable. -/
structure Use where
  name : String
  write : Bool
  /-- The number of the declaration, if there is one in the program. -/
  site : Option Nat
  deriving DecidableEq

/-- Whether a use is a write, and the slot of its declaration. -/
def Use.access (slot : Nat → Nat) (u : Use) : Bool × Option Nat :=
  (u.write, u.site.map slot)

def Sites.use (around : Sites) (write : Bool) (name : String) : Use :=
  ⟨name, write, around.lookup name⟩

def Sites.reads (around : Sites) (os : List Occurrence) : List Use :=
  os.map fun o => around.use false o.name

/-- The uses in what an assignment changes. -/
def Expr.targetUses (around : Sites) : Expr → List Use
  | .var _ name => [around.use true name]
  | target => around.reads target.occurrences

mutual

/-- The names that are declared in a statement and in the blocks inside it, in the order of the text. -/
def Stmt.binders : Stmt → List String
  | .typedDecl _ _ v _ | .inferredDecl _ _ v _ => [v.name]
  | .cond _ _ first more otherwise =>
    Branch.binders first ++ (Branch.allBinders more ++ Block.lastBinders otherwise)
  | .loop _ branch => Branch.binders branch
  | .each _ _ var _ body => var.toList.map Var.name ++ Block.binders body
  | .empty .. | .assign .. | .call .. | .ret .. | .brk .. | .func .. | .on .. => []

def Branch.binders : Branch → List String
  | .mk _ _ _ body => Block.binders body

def Branch.allBinders : List Branch → List String
  | [] => []
  | b :: bs => Branch.binders b ++ Branch.allBinders bs

def Block.lastBinders : Option Block → List String
  | none => []
  | some b => Block.binders b

def Block.binders : Block → List String
  | .mk _ _ stmts => Stmt.allBinders stmts

def Stmt.allBinders : List Stmt → List String
  | [] => []
  | s :: ss => Stmt.binders s ++ Stmt.allBinders ss

end

/-- What a declaration puts around the places where it counts, if `n` declarations come before it. -/
def Sites.bind (n : Nat) (var : Option Var) : Sites :=
  var.toList.map fun v => (v.name, n)

/-- The write of a declaration, if `n` declarations come before it. -/
def bindUses (n : Nat) (var : Option Var) : List Use :=
  var.toList.map fun v => ⟨v.name, true, some n⟩

mutual

/-- The uses in a statement, if `n` declarations come before it. -/
def Stmt.uses (around : Sites) (n : Nat) : Stmt → List Use
  | .typedDecl _ _ v value | .inferredDecl _ _ v value =>
    around.reads value.occurrences ++ bindUses n (some v)
  | .assign _ _ target value => around.reads value.occurrences ++ target.targetUses around
  | .cond _ _ first more otherwise =>
    let n' := n + (Branch.binders first).length
    Branch.uses around n first ++ (Branch.allUses around n' more ++
      Block.lastUses around (n' + (Branch.allBinders more).length) otherwise)
  | .loop _ branch => Branch.uses around n branch
  | .each _ _ var range body =>
    around.reads range.occurrences ++ (bindUses n var ++
      Block.uses (Sites.bind n var ++ around) (n + var.toList.length) body)
  | .empty .. | .call .. | .ret .. | .brk .. | .func .. | .on .. => []

def Branch.uses (around : Sites) (n : Nat) : Branch → List Use
  | .mk _ _ test body => around.reads test.occurrences ++ Block.uses around n body

def Branch.allUses (around : Sites) (n : Nat) : List Branch → List Use
  | [] => []
  | b :: bs => Branch.uses around n b ++ Branch.allUses around (n + (Branch.binders b).length) bs

def Block.lastUses (around : Sites) (n : Nat) : Option Block → List Use
  | none => []
  | some b => Block.uses around n b

def Block.uses (around : Sites) (n : Nat) : Block → List Use
  | .mk _ _ stmts => Stmt.allUses around n stmts

def Stmt.allUses (around : Sites) (n : Nat) : List Stmt → List Use
  | [] => []
  | s :: ss =>
    Stmt.uses around n s ++ Stmt.allUses (Sites.bind n s.declared? ++ around) (n + (Stmt.binders s).length) ss

end

/-- The names of the variables of a program, with the place in the list as number. -/
def Program.binders (p : Program) : List String :=
  Stmt.allBinders p.stmts

/-- The uses of variables in the code of a program. -/
def Program.uses (p : Program) : List Use :=
  Stmt.allUses [] 0 p.stmts

/-! ### Numbers -/

/-- From `n` on, `f` gives what `g` gives for the elements of a list. -/
def From {α β : Type} (f : Nat → β) (g : α → β) (n : Nat) (l : List α) : Prop :=
  ∀ i x, l[i]? = some x → f (n + i) = g x

section
variable {α β : Type} {f : Nat → β} {g : α → β} {n : Nat} {l l' : List α}

theorem From.left (h : From f g n (l ++ l')) : From f g n l := by
  intro i x hx
  obtain ⟨hlt, -⟩ := List.getElem?_eq_some_iff.1 hx
  exact h i x (by rw [List.getElem?_append_left hlt, hx])

theorem From.right (h : From f g n (l ++ l')) : From f g (n + l.length) l' := by
  intro i x hx
  rw [Nat.add_assoc]
  refine h (l.length + i) x ?_
  rw [List.getElem?_append_right (Nat.le_add_right _ _), Nat.add_sub_cancel_left, hx]

end

/-- The numbers of uses are those of declarations of their names. -/
def Sited (names : List String) (us : List Use) : Prop :=
  ∀ u ∈ us, ∀ n, u.site = some n → names[n]? = some u.name

section
variable {names : List String} {around : Sites} {us us' : List Use} {n : Nat}

theorem Sited.append (h : Sited names us) (h' : Sited names us') : Sited names (us ++ us') :=
  List.forall_mem_append.2 ⟨h, h'⟩

/-- The declarations around a place have their numbers. -/
def Sites.Named (names : List String) (around : Sites) : Prop :=
  ∀ d ∈ around, names[d.2]? = some d.1

theorem Sites.Named.use (h : around.Named names) (write : Bool) (name : String) :
    Sited names [around.use write name] := by
  intro u hu n hn
  obtain rfl := List.mem_singleton.1 hu
  obtain ⟨l, l', heq, -⟩ := List.lookup_eq_some_iff.1 hn
  exact h (name, n) (heq ▸ List.mem_append_right _ List.mem_cons_self)

theorem Sites.Named.reads (h : around.Named names) (os : List Occurrence) :
    Sited names (around.reads os) := by
  intro u hu
  obtain ⟨o, -, rfl⟩ := List.mem_map.1 hu
  exact h.use false o.name _ (List.mem_singleton.2 rfl)

theorem Sites.Named.targetUses (h : around.Named names) (target : Expr) :
    Sited names (target.targetUses around) := by
  cases target with
  | var _ name => exact h.use true name
  | _ => exact h.reads _

theorem sited_bindUses {var : Option Var}
    (h : From (names[·]?) some n (var.toList.map Var.name)) : Sited names (bindUses n var) := by
  cases var with
  | none => exact nofun
  | some v =>
    intro u hu k hk
    obtain rfl := List.mem_singleton.1 hu
    obtain rfl := Option.some.inj hk
    exact h 0 v.name rfl

theorem Sites.Named.bind {var : Option Var} (h : around.Named names)
    (hn : From (names[·]?) some n (var.toList.map Var.name)) :
    Sites.Named names (Sites.bind n var ++ around) := by
  refine List.forall_mem_append.2 ⟨fun d hd => ?_, h⟩
  cases var with
  | none => cases hd
  | some v =>
    obtain rfl := List.mem_singleton.1 hd
    exact hn 0 v.name rfl

mutual

theorem sited_stmt {around : Sites} {n : Nat} (h : around.Named names) :
    (s : Stmt) → From (names[·]?) some n (Stmt.binders s) → Sited names (Stmt.uses around n s)
  | .typedDecl .., hn | .inferredDecl .., hn => by
    rw [Stmt.binders] at hn
    rw [Stmt.uses]
    exact (h.reads _).append (sited_bindUses hn)
  | .assign .., _ => by
    rw [Stmt.uses]
    exact (h.reads _).append (h.targetUses _)
  | .cond _ _ first more otherwise, hn => by
    rw [Stmt.binders] at hn
    rw [Stmt.uses]
    exact (sited_branch h first hn.left).append ((sited_branches h more hn.right.left).append
      (sited_last h otherwise hn.right.right))
  | .loop _ branch, hn => by
    rw [Stmt.binders] at hn
    rw [Stmt.uses]
    exact sited_branch h branch hn
  | .each _ _ var _ body, hn => by
    rw [Stmt.binders] at hn
    rw [Stmt.uses]
    have hbody := hn.right
    rw [List.length_map] at hbody
    exact (h.reads _).append ((sited_bindUses hn.left).append (sited_block (h.bind hn.left) body hbody))
  | .empty .., _ | .call .., _ | .ret .., _ | .brk .., _ | .func .., _ | .on .., _ => by
    rw [Stmt.uses]
    exact nofun

theorem sited_branch {around : Sites} {n : Nat} (h : around.Named names) :
    (b : Branch) → From (names[·]?) some n (Branch.binders b) → Sited names (Branch.uses around n b)
  | .mk _ _ _ body, hn => by
    rw [Branch.binders] at hn
    rw [Branch.uses]
    exact (h.reads _).append (sited_block h body hn)

theorem sited_branches {around : Sites} {n : Nat} (h : around.Named names) : (bs : List Branch) →
    From (names[·]?) some n (Branch.allBinders bs) → Sited names (Branch.allUses around n bs)
  | [], _ => by
    rw [Branch.allUses]
    exact nofun
  | b :: bs, hn => by
    rw [Branch.allBinders] at hn
    rw [Branch.allUses]
    exact (sited_branch h b hn.left).append (sited_branches h bs hn.right)

theorem sited_last {around : Sites} {n : Nat} (h : around.Named names) : (b : Option Block) →
    From (names[·]?) some n (Block.lastBinders b) → Sited names (Block.lastUses around n b)
  | none, _ => by
    rw [Block.lastUses]
    exact nofun
  | some b, hn => by
    rw [Block.lastBinders] at hn
    rw [Block.lastUses]
    exact sited_block h b hn

theorem sited_block {around : Sites} {n : Nat} (h : around.Named names) :
    (b : Block) → From (names[·]?) some n (Block.binders b) → Sited names (Block.uses around n b)
  | .mk _ _ stmts, hn => by
    rw [Block.binders] at hn
    rw [Block.uses]
    exact sited_stmts h stmts hn

theorem sited_stmts {around : Sites} {n : Nat} (h : around.Named names) : (ss : List Stmt) →
    From (names[·]?) some n (Stmt.allBinders ss) → Sited names (Stmt.allUses around n ss)
  | [], _ => by
    rw [Stmt.allUses]
    exact nofun
  | s :: ss, hn => by
    rw [Stmt.allBinders] at hn
    rw [Stmt.allUses]
    have hdeclared : From (names[·]?) some n (s.declared?.toList.map Var.name) := by
      cases hv : s.declared? with
      | none => exact nofun
      | some v =>
        have hbinders : Stmt.binders s = [v.name] := by
          cases s <;> cases hv <;> rw [Stmt.binders]
        have hleft := hn.left
        rw [hbinders] at hleft
        exact hleft
    exact (sited_stmt h s hn.left).append (sited_stmts (h.bind hdeclared) ss hn.right)

end

theorem Program.sited (p : Program) : Sited p.binders p.uses := by
  refine sited_stmts (fun d hd => absurd hd List.not_mem_nil) p.stmts fun i x hx => ?_
  rw [Nat.zero_add]
  exact hx

end

/-! ### Uses without a declaration -/

/-- Uses without a declaration in the program are of variables of the host. -/
def HostOnly (host : List Var) (us : List Use) : Prop :=
  ∀ u ∈ us, u.site = none → ∃ v ∈ host, v.name = u.name

section
variable {host around : List Var} {sites : Sites} {us us' : List Use} {taken : String → Prop}

theorem HostOnly.nil : HostOnly host [] := nofun

theorem HostOnly.append (h : HostOnly host us) (h' : HostOnly host us') : HostOnly host (us ++ us') :=
  List.forall_mem_append.2 ⟨h, h'⟩

theorem HostOnly.bindUses (n : Nat) (var : Option Var) : HostOnly host (bindUses n var) := by
  intro u hu hnone
  obtain ⟨v, -, rfl⟩ := List.mem_map.1 hu
  cases hnone

/-- All declarations around a place have numbers, except for those of the host. -/
def Numbered (host around : List Var) (sites : Sites) : Prop :=
  around.map Var.name = sites.map Prod.fst ++ host.map Var.name

theorem Numbered.bind (h : Numbered host around sites) (n : Nat) (var : Option Var) :
    Numbered host (var.toList ++ around) (Sites.bind n var ++ sites) := by
  cases var with
  | none => exact h
  | some v => exact congrArg (v.name :: ·) h

theorem Numbered.use_of_refers (h : Numbered host around sites) {o : Occurrence} (ho : o.Refers around)
    (write : Bool) : HostOnly host [sites.use write o.name] := by
  intro u hu hnone
  obtain rfl := List.mem_singleton.1 hu
  obtain ⟨-, v, hv, -⟩ := ho
  have hmem : o.name ∈ around.map Var.name :=
    List.mem_map.2 ⟨v, List.mem_of_find?_eq_some hv, by simpa using List.find?_some hv⟩
  rcases List.mem_append.1 (h ▸ hmem) with hsite | hhost
  · obtain ⟨d, hd, heq⟩ := List.mem_map.1 hsite
    exact absurd heq.symm (bne_iff_ne.1 (List.lookup_eq_none_iff.1 hnone d hd))
  · obtain ⟨w, hw, heq⟩ := List.mem_map.1 hhost
    exact ⟨w, hw, heq⟩

theorem Numbered.reads (h : Numbered host around sites) {os : List Occurrence}
    (ho : ∀ o ∈ os, o.Refers around) : HostOnly host (sites.reads os) := by
  intro u hu hnone
  obtain ⟨o, hmem, rfl⟩ := List.mem_map.1 hu
  exact h.use_of_refers (ho o hmem) false _ (List.mem_singleton.2 rfl) hnone

theorem Numbered.targetUses (h : Numbered host around sites) {target : Expr}
    (ho : ∀ o ∈ target.occurrences, o.Refers around) : HostOnly host (target.targetUses sites) := by
  cases target with
  | var m name => exact h.use_of_refers (ho ⟨name, m.ty⟩ List.mem_cons_self) true
  | _ => exact h.reads ho

mutual

theorem Stmt.Closed.hostOnly {around : List Var} {sites : Sites} {n : Nat}
    (h : Numbered host around sites) :
    (s : Stmt) → Stmt.Closed taken around s → HostOnly host (Stmt.uses sites n s)
  | .typedDecl .., hs | .inferredDecl .., hs => by
    rw [Stmt.Closed] at hs
    rw [Stmt.uses]
    exact (h.reads hs).append (.bindUses n _)
  | .assign .., hs => by
    rw [Stmt.Closed] at hs
    rw [Stmt.uses]
    obtain ⟨htarget, hvalue⟩ := List.forall_mem_append.1 hs
    exact (h.reads hvalue).append (h.targetUses htarget)
  | .cond _ _ first more otherwise, hs => by
    rw [Stmt.Closed] at hs
    rw [Stmt.uses]
    obtain ⟨hfirst, hmore, hlast⟩ := hs
    exact (Branch.Closed.hostOnly h first hfirst).append
      ((Branch.AllClosed.hostOnly h more hmore).append (Block.LastClosed.hostOnly h otherwise hlast))
  | .loop _ branch, hs => by
    rw [Stmt.Closed] at hs
    rw [Stmt.uses]
    exact Branch.Closed.hostOnly h branch hs
  | .each _ _ var range body, hs => by
    rw [Stmt.Closed] at hs
    rw [Stmt.uses]
    have hvars : var.toList.reverse = var.toList := by cases var <;> rfl
    have hbind : Numbered host (var.toList.reverse ++ around) (Sites.bind n var ++ sites) :=
      hvars.symm ▸ h.bind n var
    exact (h.reads hs.1).append
      ((HostOnly.bindUses n var).append (Block.Closed.hostOnly body hs.2 hbind))
  | .empty .., _ | .call .., _ | .ret .., _ | .brk .., _ | .func .., _ | .on .., _ => by
    rw [Stmt.uses]
    exact .nil

theorem Branch.Closed.hostOnly {around : List Var} {sites : Sites} {n : Nat}
    (h : Numbered host around sites) :
    (b : Branch) → Branch.Closed taken around b → HostOnly host (Branch.uses sites n b)
  | .mk _ _ _ body, hb => by
    rw [Branch.Closed] at hb
    rw [Branch.uses]
    exact (h.reads hb.1).append (Block.Closed.hostOnly body hb.2 h)

theorem Branch.AllClosed.hostOnly {around : List Var} {sites : Sites} {n : Nat}
    (h : Numbered host around sites) :
    (bs : List Branch) → Branch.AllClosed taken around bs → HostOnly host (Branch.allUses sites n bs)
  | [], _ => by
    rw [Branch.allUses]
    exact .nil
  | b :: bs, hb => by
    rw [Branch.AllClosed] at hb
    rw [Branch.allUses]
    exact (Branch.Closed.hostOnly h b hb.1).append (Branch.AllClosed.hostOnly h bs hb.2)

theorem Block.LastClosed.hostOnly {around : List Var} {sites : Sites} {n : Nat}
    (h : Numbered host around sites) :
    (b : Option Block) → Block.LastClosed taken around b → HostOnly host (Block.lastUses sites n b)
  | none, _ => by
    rw [Block.lastUses]
    exact .nil
  | some b, hb => by
    rw [Block.LastClosed] at hb
    rw [Block.lastUses]
    exact Block.Closed.hostOnly b hb h

theorem Block.Closed.hostOnly {around vars : List Var} {sites : Sites} {n : Nat} :
    (b : Block) → Block.Closed taken around vars b →
      -- the variables that the block starts with are the nearest ones
      Numbered host (vars.reverse ++ around) sites → HostOnly host (Block.uses sites n b)
  | .mk _ _ stmts, hb, h => by
    rw [Block.Closed] at hb
    rw [Block.uses]
    exact Stmt.AllClosed.hostOnly h stmts hb.2.2

theorem Stmt.AllClosed.hostOnly {around : List Var} {sites : Sites} {n : Nat}
    (h : Numbered host around sites) :
    (ss : List Stmt) → Stmt.AllClosed taken around ss → HostOnly host (Stmt.allUses sites n ss)
  | [], _ => by
    rw [Stmt.allUses]
    exact .nil
  | s :: ss, hs => by
    rw [Stmt.AllClosed] at hs
    rw [Stmt.allUses]
    obtain ⟨hfirst, -, hrest⟩ := hs
    exact (Stmt.Closed.hostOnly h s hfirst).append (Stmt.AllClosed.hostOnly (h.bind n s.declared?) ss hrest)

end

theorem Program.Closed.hostOnly {prelude : Prelude} {p : Program} (h : p.Closed prelude) :
    HostOnly prelude.globals p.uses :=
  Stmt.AllClosed.hostOnly (by rfl) p.stmts h.stmts

end

end TinyScript
