import TreeAsm.Program.Basic

/-!
# Paths through a body

Whether some path through a statement reaches its end, read off its structure. No path goes on after a
return; a conditional is left through each of its arms, and past all of them if it has no `else`; a loop
may be left at once.

What stands after a statement whose end no path reaches is on no path either. It can also be taken to
start a path of its own (`afresh`), and then the last statement of a list decides alone. The two
agree unless that one is left and another one is not (`stmtsContinue_agree_iff`).
-/

namespace TreeAsm.Program

mutual

/-- Whether some path through a statement reaches its end. -/
def Stmt.continues (afresh : Bool) : Stmt → Bool
  | .block body => body.continues afresh
  | .cond _ arms otherwise => armsContinue afresh arms || optionalContinues afresh otherwise
  | .return _ _ => false
  | _ => true

/-- Whether some path through a block reaches its end. -/
def Block.continues (afresh : Bool) : Block → Bool
  | .mk _ stmts => stmtsContinue afresh true stmts

/-- Whether some path through a block reaches its end, or there is no block. -/
def optionalContinues (afresh : Bool) : Option Block → Bool
  | some body => body.continues afresh
  | none => true

/-- Whether some path through statements reaches their end, where `reached` tells whether one comes to
the first of them. -/
def stmtsContinue (afresh reached : Bool) : List Stmt → Bool
  | [] => reached
  | st :: rest => stmtsContinue afresh ((reached || afresh) && st.continues afresh) rest

/-- Whether some path through one of the arms of a conditional reaches its end. -/
def armsContinue (afresh : Bool) : List Arm → Bool
  | [] => false
  | .mk _ body :: rest => optionalContinues afresh body || armsContinue afresh rest

end

theorem stmtsContinue_false (reached : Bool) (stmts : List Stmt) :
    stmtsContinue false reached stmts = (reached && stmts.all (·.continues false)) := by
  induction stmts generalizing reached with
  | nil => simp [stmtsContinue]
  | cons st rest ih => simp [stmtsContinue, ih, Bool.and_assoc]

theorem stmtsContinue_true (reached : Bool) (stmts : List Stmt) (last : Stmt) :
    stmtsContinue true reached (stmts ++ [last]) = last.continues true := by
  induction stmts generalizing reached with
  | nil => simp [stmtsContinue]
  | cons st rest ih => exact ih _

theorem stmtsContinue_agree_iff {stmts : List Stmt} {last : Stmt}
    (h : last.continues true = last.continues false) :
    stmtsContinue true true (stmts ++ [last]) = stmtsContinue false true (stmts ++ [last]) ↔
      last.continues false = false ∨ ∀ st ∈ stmts, st.continues false := by
  rw [stmtsContinue_true, stmtsContinue_false, h, List.all_append]
  cases hlast : last.continues false <;> simp [hlast]

end TreeAsm.Program
