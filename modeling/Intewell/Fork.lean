/-
# A failed fork

do_fork (fork.c) with the objects of process_obj.c and pid.c: where it returns a negative value,
what it has left in the lists, the ids, the reference counts and the blocks.  `Found` says which of
its allocations succeed.  The signals, whose failure is only logged, are left out.

Nothing is undone.  It leaves no trace exactly if it fails before it allocates the kernel stack
(`fork_traceless_iff`); a task that cannot be created leaves a child in the list of its parent
(`fork_leaves_child`).
-/

import Mathlib.Data.Nat.Basic
import Mathlib.Order.Basic

namespace Intewell.Fork

open Function (update)

def EPERM : ℤ := 1
def ENOMEM : ℤ := 12
def EINVAL : ℤ := 22

/-- Of `clone_flags`. -/
structure Flags where
  thread : Bool
  sighand : Bool
  vm : Bool
  files : Bool

def check_clone_flags (f : Flags) : Bool := (!f.thread || f.sighand) && (!f.sighand || f.vm)

structure Param where
  periodTime : ℕ
  durationTime : ℕ
  autoStarted : Bool

/-- The objects that a process shares with its threads or its children. -/
inductive Obj where
  | pid | wait_info | cmdline | vfs_list | mm | envp
deriving DecidableEq

inductive Block where
  | child | taskStack | pid_node | text | obj (o : Obj)
deriving DecidableEq

/-- Whether there is a caller, and a block for the child, its stack, the node of its pid and the
text of its command line; a region at `newsp`; a free id; for each object, its block; a process
group, and a task. -/
structure Found where
  caller : Bool
  child : Bool
  taskStack : Bool
  region : Bool
  pid_node : Bool
  text : Bool
  pid : Option ℕ
  obj : Obj → Bool
  group : Bool
  task : Bool

/-- The children of the parent, the threads of its group and the members of its process group; the
ids in use, the references to its objects, and the blocks. -/
structure Sys where
  children : List ℕ
  thread_group : List ℕ
  pgrp : List ℕ
  ids : List ℕ
  refs : Obj → ℕ
  blocks : List Block

def Sys.alloc (b : Block) (s : Sys) : Sys := { s with blocks := b :: s.blocks }

def process_obj_create (fd : Found) (o : Obj) (s : Sys) : Sys :=
  if fd.obj o then s.alloc (.obj o) else s

def process_obj_ref (fd : Found) (o : Obj) (s : Sys) : Sys :=
  if fd.obj o then { s with refs := update s.refs o (s.refs o + 1), blocks := .obj o :: s.blocks }
  else s

def strdup (fd : Found) (s : Sys) : Sys := if fd.text then s.alloc .text else s

/-- The child is another reference to an object, or has its own. -/
def share (fd : Found) (shared : Bool) (o : Obj) (s : Sys) : Sys :=
  if shared then process_obj_ref fd o s else process_obj_create fd o s

/-- Whether the child has a pid; the node is freed if the object is missing, but not the id. -/
def pid_obj_alloc (fd : Found) (s : Sys) : Bool × Sys :=
  match fd.pid_node, fd.pid with
  | true, some pid =>
    let s := { s with ids := pid :: s.ids }
    if fd.obj .pid then (true, process_obj_create fd .pid (s.alloc .pid_node)) else (false, s)
  | _, _ => (false, s)

/-- The pid, the command line and the wait information of `c`; a process joins the children. -/
def identify (fd : Found) (thread : Bool) (c : ℕ) (s : Sys) : Bool × Sys :=
  if thread then
    if fd.obj .pid = false then (false, s)
    else (true, process_obj_ref fd .cmdline (process_obj_ref fd .wait_info
      (process_obj_ref fd .pid s)))
  else
    let r := pid_obj_alloc fd s
    if r.1 = false then r
    else
      let s := process_obj_create fd .cmdline (strdup fd r.2)
      if fd.obj .cmdline = false then (false, s)
      else
        let s := process_obj_create fd .wait_info s
        if fd.obj .wait_info = false then (false, s)
        else (true, { s with children := c :: s.children })

/-- The files, the address space and the environment, and the group of threads or of processes. -/
def join (fd : Found) (f : Flags) (c : ℕ) (s : Sys) : Sys :=
  let s := process_obj_ref fd .envp (share fd f.vm .mm (share fd f.files .vfs_list s))
  if f.thread then { s with thread_group := c :: s.thread_group }
  else if fd.group then { s with pgrp := c :: s.pgrp } else s

/-- `c` is the control block of the child. -/
def do_fork (fd : Found) (f : Flags) (newsp : ℕ) (param : Option Param) (c : ℕ) (s : Sys) :
    ℤ × Sys :=
  if check_clone_flags f = false then (-1, s)
  else if fd.caller = false then (-EPERM, s)
  else if fd.child = false then (-ENOMEM, s)
  else if param.any fun p => p.periodTime < p.durationTime then (-EINVAL, s)
  else
    let s := s.alloc .child
    if fd.taskStack = false then (-ENOMEM, s)
    else
      let s := s.alloc .taskStack
      if newsp ≠ 0 ∧ fd.region = false then (-EINVAL, s)
      else
        let r := identify fd f.thread c s
        if r.1 = false then (-ENOMEM, r.2)
        else
          let s := join fd f c r.2
          if param.all Param.autoStarted ∧ fd.task = false then (-ENOMEM, s)
          else (fd.pid.getD 0, s)

/-- The call is refused, or there is no block for the child. -/
def Early (fd : Found) (f : Flags) (param : Option Param) : Prop :=
  check_clone_flags f = false ∨ fd.caller = false ∨ fd.child = false ∨
    param.any (fun p => p.periodTime < p.durationTime) = true

variable {fd : Found} {f : Flags} {o : Obj} {c : ℕ} {s : Sys} {shared : Bool}

theorem length_create : s.blocks.length ≤ (process_obj_create fd o s).blocks.length := by
  unfold process_obj_create
  split_ifs <;> simp [Sys.alloc]

theorem length_strdup : s.blocks.length ≤ (strdup fd s).blocks.length := by
  unfold strdup
  split_ifs <;> simp [Sys.alloc]

theorem length_ref : s.blocks.length ≤ (process_obj_ref fd o s).blocks.length := by
  unfold process_obj_ref
  split_ifs <;> simp

theorem length_share : s.blocks.length ≤ (share fd shared o s).blocks.length := by
  unfold share
  split_ifs
  · exact length_ref
  · exact length_create

theorem length_pid : s.blocks.length ≤ (pid_obj_alloc fd s).2.blocks.length := by
  unfold pid_obj_alloc
  split
  · split_ifs with hobj
    · simp only [process_obj_create, hobj, if_true, Sys.alloc, List.length_cons]
      omega
    · exact le_rfl
  · exact le_rfl

theorem length_identify {thread : Bool} :
    s.blocks.length ≤ (identify fd thread c s).2.blocks.length := by
  unfold identify
  dsimp only
  split_ifs
  · exact le_rfl
  · exact length_ref.trans (length_ref.trans length_ref)
  · exact length_pid
  · exact length_pid.trans (length_strdup.trans length_create)
  all_goals exact length_pid.trans (length_strdup.trans (length_create.trans length_create))

theorem length_join : s.blocks.length ≤ (join fd f c s).blocks.length := by
  have h : s.blocks.length ≤ (process_obj_ref fd .envp
      (share fd f.vm .mm (share fd f.files .vfs_list s))).blocks.length :=
    length_share.trans (length_share.trans length_ref)
  unfold join
  dsimp only
  split_ifs <;> exact h

/-- Whatever was allocated is still there. -/
theorem fork_traceless_iff {newsp : ℕ} {param : Option Param}
    (h : (do_fork fd f newsp param c s).1 < 0) :
    (do_fork fd f newsp param c s).2 = s ↔ Early fd f param := by
  -- a longer list of blocks is another one
  have hne {s' : Sys} (hl : (s.alloc .child).blocks.length ≤ s'.blocks.length) : s' ≠ s := by
    rintro rfl
    exact absurd hl (Nat.not_succ_le_self _)
  have hstack : (s.alloc .child).blocks.length ≤
    ((s.alloc .child).alloc .taskStack).blocks.length :=
    Nat.le_succ _
  unfold do_fork at h ⊢
  dsimp only at h ⊢
  split_ifs at h ⊢ with hflags hcaller hchild hparam hstack' hregion hid htask
  · simp [Early, hflags]
  · simp [Early, hcaller]
  · simp [Early, hchild]
  · simp [Early, hparam]
  all_goals
    have hlate : ¬Early fd f param := by simp [Early, hflags, hcaller, hchild, hparam]
    refine iff_of_false ?_ hlate
  · exact hne le_rfl
  · exact hne hstack
  · exact hne (hstack.trans length_identify)
  · exact hne (hstack.trans (length_identify.trans length_join))
  · exact absurd h (by omega)

def plain : Flags := ⟨false, false, false, false⟩

/-- All is found but the task. -/
def noTask : Found := ⟨true, true, true, true, true, true, some 5, fun _ => true, true, false⟩

def parent : Sys := ⟨[], [1], [1], [1], fun _ => 1, []⟩

theorem fork_traceless_noMemory : (do_fork { noTask with child := false } plain 0 none 7 parent).2 =
    parent ↔ Early { noTask with child := false } plain none :=
  fork_traceless_iff (by decide)

/-- The parent has a child that has no task, in its process group and with an id. -/
theorem fork_leaves_child : (do_fork noTask plain 0 none 7 parent).1 = -ENOMEM ∧
    (do_fork noTask plain 0 none 7 parent).2.children = [7] ∧
    (do_fork noTask plain 0 none 7 parent).2.ids = [5, 1] ∧
    (do_fork noTask plain 0 none 7 parent).2.pgrp = [7, 1] := by decide

end Intewell.Fork
