/-
**The programs of the processes** (`apps/system`, `library/servers/servers.c`).

The processes 1 to 4 run the servers and the shell, and all others run user applications.  What a
process does between two operations of the kernel is of no concern to others, so a program is a
state machine whose states, the *activities*, stand in front of a call of `sys_send`, `sys_recv`,
`proc_alloc`, `proc_set_ready` or `proc_free`.  A user application may call `dir_lookup` and
`file_read` as often as it likes, with arguments of its choice, and exit; the user of the shell may
enter any command.

The functions `dir_lookup` and `file_read` are calls of another process: a request, and a
reply.  Where the exchange of these messages does not matter, the calls may be taken to be answered
at once, which is the other of two modes.

A message carries, besides what is sent, the call it belongs to; no program looks at this.

Main definitions:

* `Egos.Request`, `Egos.Body`, `Egos.Msg` — the messages;
* `Egos.Env` — what the servers compute;
* `Egos.Act`, `Egos.Act.op`, `Egos.Act.afterSend`, `Egos.Act.afterRecv` — the activities;
* `Egos.World`, `Egos.World.step` — **the processes running their programs**;
* `Egos.ProgStep` — what a step does to the stages of the processes and their programs.

Main results:

* `Egos.World.progStep` — every step of the machine is one of these.
-/

import Egos.Delivery

set_option autoImplicit false

namespace Egos

open Function (update update_of_ne update_self)
open Rendezvous (Stage Ev Step)

/-! ### Messages -/

/-- A word of a command line, or a name in a directory. -/
abbrev Name : Type := List Char

/-- The arguments of `struct proc_request` for `PROC_SPAWN`: there is at least one word. -/
structure Cmd where
  command : Name
  args : List Name
  deriving DecidableEq

/-- `req->argv[req->argc - 1]` -/
def Cmd.lastArg (c : Cmd) : Name := c.args.getLastD c.command

/-- `req->argv[req->argc - 1][0] != '&'` -/
def Cmd.foreground (c : Cmd) : Bool := c.lastArg.head? != some '&'

/-- The requests of `dir_lookup` and `file_read`, `struct dir_request` and `struct file_request`. -/
inductive Request
  | dirLookup (ino : ℤ) (name : Name)
  | fileRead (ino : ℤ) (offset : ℕ)
  deriving DecidableEq

/-- The process that is called. -/
def Request.server : Request → ℤ
  | .dirLookup _ _ => GPID_DIR
  | .fileRead _ _ => GPID_FILE

/-- What is sent.  `B` is the type of blocks. -/
inductive Body (B : Type)
  /-- "Finish GPID_FILE initialization" and "Finish GPID_DIR initialization" -/
  | finish
  /-- `struct proc_request` -/
  | spawn (cmd : Cmd)
  | exit
  | killall
  /-- `struct proc_reply`: is the type `CMD_OK`? -/
  | procReply (ok : Bool)
  | request (r : Request)
  /-- `struct file_reply`: is the status `FILE_OK`? -/
  | fileReply (ok : Bool) (block : B)
  /-- `struct dir_reply`: is the status `DIR_OK`? -/
  | dirReply (ok : Bool) (ino : ℤ)
  deriving DecidableEq

/-- A message, and the call of `dir_lookup` or `file_read` that it belongs to: the caller and how
many calls it completed before. -/
structure Msg (B : Type) where
  body : Body B
  tag : ℤ × ℕ
  deriving DecidableEq

/-- The next step of `elf_load`, after it has read some blocks. -/
inductive Load
  | read (offset : ℕ)
  | done
  /-- `FATAL("elf_load: Invalid p_vaddr")` -/
  | fatal

/-- What the servers compute. -/
structure Env (B : Type) where
  /-- `fs->read`: does it succeed, and the block. -/
  read : ℤ → ℕ → Bool × B
  /-- The search of `dir_do_lookup` for a name in a block, `-1` if there is none. -/
  find : B → Name → ℤ
  /-- `elf_load`, given the blocks that it has read. -/
  load : List B → Load

variable {B : Type}

/-- The reply of a server to a request. -/
def Env.answer (env : Env B) : Request → Body B
  | .fileRead ino offset => .fileReply (env.read ino offset).1 (env.read ino offset).2
  | .dirLookup ino name =>
      let found := env.find (env.read ino 0).2 name
      .dirReply (found != -1) found

/-! ### Activities -/

/-- What to do with the result of `dir_lookup` or `file_read`. -/
inductive Kont (B : Type)
  /-- A user application. -/
  | user
  /-- `sys_dir` searches the block for the name that a client asked for. -/
  | lookup (client : ℤ) (tag : ℤ × ℕ) (name : Name)
  /-- `app_spawn` of `sys_proc`: the inode of `bin/`, that of the command, and a block of it. -/
  | bin (cmd : Cmd)
  | app (cmd : Cmd)
  | load (cmd : Cmd) (pid ino : ℤ) (blocks : List B)
  deriving DecidableEq

/-- The calls of `FATAL`. -/
inductive Fatal
  /-- "dir_lookup: an error occurred" -/
  | dirLookup
  /-- "file_read: an error occurred" -/
  | fileRead
  /-- "sys_proc: invalid request", "sys_dir: request not implemented" and
  "sys_file: request not implemented" -/
  | badRequest
  | elfLoad
  /-- A reply with the contents of another kind of message. -/
  | badReply
  deriving DecidableEq

/-- What a process is about to do. -/
inductive Act (B : Type)
  /-- Any code of a user application. -/
  | user
  /-- `sys_exit`, and the loop afterwards. -/
  | exit
  | halt
  | fatal (f : Fatal)
  /-- In `dir_lookup` or `file_read`, before `sys_send` and before `sys_recv`. -/
  | call (r : Request) (k : Kont B)
  | await (r : Request) (k : Kont B)
  /-- The notification that a server sends to `GPID_PROCESS`. -/
  | notify
  /-- `sys_recv` in the main loop of a server. -/
  | serve
  /-- The reply of `sys_file` or `sys_dir`. -/
  | reply (client : ℤ) (m : Msg B)
  /-- `sys_proc` starts the `n`-th of the other system processes. -/
  | sysAlloc (n : ℕ)
  | sysReady (n : ℕ) (pid : ℤ)
  | sysWait (n : ℕ)
  /-- The rest of `app_spawn` of `sys_proc`. -/
  | appAlloc (cmd : Cmd) (ino : ℤ)
  | appReady (cmd : Cmd) (pid : ℤ)
  /-- The reply of `sys_proc` to `PROC_SPAWN`. -/
  | spawned (cmd : Cmd) (ok : Bool)
  /-- `proc_free` for `PROC_EXIT` and `PROC_KILLALL`, and the message to the shell. -/
  | procFree (pid : ℤ)
  | exited
  /-- The shell: `tty_read`, `PROC_SPAWN`, the first and the second reply, `PROC_KILLALL`. -/
  | prompt
  | command (cmd : Cmd)
  | awaitReply (cmd : Cmd)
  | awaitExit
  | killall
  deriving DecidableEq

/-- Are `dir_lookup` and `file_read` carried out by messages, or answered at once? -/
inductive Mode
  | messages
  | atomic
  deriving DecidableEq

/-- The operations of a process. -/
inductive Op (B : Type)
  | send (q : ℤ) (m : Msg B)
  | recv
  /-- A call of `dir_lookup` or `file_read` that is answered at once. -/
  | answer
  | alloc
  | ready (pid : ℤ)
  | free (pid : ℤ)
  /-- Nothing, or nothing before a decision is made. -/
  | none
  deriving DecidableEq

namespace Act

/-- The activity of a new process: the shell begins with the command `cd`. -/
def start (pid : ℤ) : Act B :=
  if pid = GPID_FILE ∨ pid = GPID_DIR then .notify
  else if pid = GPID_SHELL then .command ⟨['c', 'd'], []⟩
  else .user

/-- What a process is about to do, where `tag` is the call that it makes next. -/
def op (mode : Mode) (tag : ℤ × ℕ) : Act B → Op B
  | .call r _ =>
      match mode with
      | .messages => .send r.server ⟨.request r, tag⟩
      | .atomic => .answer
  | .await _ _ => .recv
  | .notify => .send GPID_PROCESS ⟨.finish, tag⟩
  | .serve => .recv
  | .reply client m => .send client m
  | .sysAlloc _ => .alloc
  | .sysReady _ pid => .ready pid
  | .sysWait _ => .recv
  | .appAlloc _ _ => .alloc
  | .appReady _ pid => .ready pid
  | .spawned _ ok => .send GPID_SHELL ⟨.procReply ok, tag⟩
  | .procFree pid => .free pid
  -- the buffer still holds `PROC_EXIT`, which is the same number as `CMD_ERROR`
  | .exited => .send GPID_SHELL ⟨.procReply false, tag⟩
  | .exit => .send GPID_PROCESS ⟨.exit, tag⟩
  | .command cmd => .send GPID_PROCESS ⟨.spawn cmd, tag⟩
  | .awaitReply _ => .recv
  | .awaitExit => .recv
  | .killall => .send GPID_PROCESS ⟨.killall, tag⟩
  | .user => .none
  | .halt => .none
  | .fatal _ => .none
  | .prompt => .none

/-- After `sys_send` has returned; its result is not looked at. -/
def afterSend : Act B → Act B
  | .call r k => .await r k
  | .reply _ _ => .serve
  | .notify => .serve
  | .exit => .halt
  | .command cmd => .awaitReply cmd
  | .killall => .prompt
  | .spawned _ _ => .serve
  | .exited => .serve
  | a => a

/-- The next step of `elf_load` inside `app_spawn`. -/
def loadNext (env : Env B) (cmd : Cmd) (pid ino : ℤ) (blocks : List B) : Act B :=
  match env.load blocks with
  | .read offset => .call (.fileRead ino offset) (.load cmd pid ino blocks)
  | .done => .appReady cmd pid
  | .fatal => .fatal .elfLoad

/-- The caller of `dir_lookup` or `file_read` goes on with the reply. -/
def resume (env : Env B) : Kont B → Body B → Act B
  | .user, _ => .user
  | .lookup client tag name, .fileReply _ block =>
      let found := env.find block name
      .reply client ⟨.dirReply (found != -1) found, tag⟩
  | .bin cmd, .dirReply ok ino =>
      .call (.dirLookup (if ok then ino else -1) cmd.command) (.app cmd)
  | .app cmd, .dirReply ok ino =>
      if (if ok then ino else -1) < 0 then .spawned cmd false else .appAlloc cmd ino
  | .load cmd pid ino blocks, .fileReply _ block => loadNext env cmd pid ino (blocks ++ [block])
  | _, _ => .fatal .badReply

/-- The main loops of `sys_proc`, `sys_file` and `sys_dir`. -/
def handle (env : Env B) (pid sender : ℤ) (m : Msg B) : Act B :=
  if pid = GPID_PROCESS then
    match m.body with
    | .spawn cmd => .call (.dirLookup 0 ['b', 'i', 'n', '/']) (.bin cmd)
    | .exit => .procFree sender
    | .killall => .procFree (-1)
    | _ => .fatal .badRequest
  else if pid = GPID_FILE then
    match m.body with
    | .request (.fileRead ino offset) => .reply sender ⟨env.answer (.fileRead ino offset), m.tag⟩
    | _ => .fatal .badRequest
  else
    match m.body with
    | .request (.dirLookup ino name) => .call (.fileRead ino 0) (.lookup sender m.tag name)
    | _ => .fatal .badRequest

/-- `FATAL` in `dir_lookup` and `file_read`. -/
def wrongSender : Request → Act B
  | .dirLookup _ _ => .fatal .dirLookup
  | .fileRead _ _ => .fatal .fileRead

/-- After `sys_recv` has returned. -/
def afterRecv (env : Env B) (pid sender : ℤ) (m : Msg B) : Act B → Act B
  | .await r k => if sender ≠ r.server then wrongSender r else resume env k m.body
  | .serve => handle env pid sender m
  | .sysWait n => .sysAlloc (n + 1)
  | .awaitReply cmd =>
      match m.body with
      | .procReply true => if cmd.foreground then .awaitExit else .prompt
      | _ => .prompt
  | .awaitExit => .prompt
  | a => a

end Act

/-- What a user application, or the user of the shell, decides. -/
inductive Choice
  | call (r : Request)
  | exit
  | command (cmd : Cmd)
  | killall

/-- The decision of a process that has one to make. -/
def Act.choose : Act B → Choice → Option (Act B)
  | .user, .call r => some (.call r .user)
  | .user, .exit => some .exit
  | .prompt, .command cmd => some (.command cmd)
  | .prompt, .killall => some .killall
  | _, _ => none

/-! ### The processes running their programs -/

/-- What `sys_proc` does on behalf of the shell. -/
inductive Event
  /-- It takes a request `PROC_SPAWN` or `PROC_KILLALL`. -/
  | request (cmd : Cmd)
  | killall
  /-- `app_spawn` has created a process. -/
  | spawn (pid : ℤ)
  /-- It calls `sys_send` for the shell: is the type `CMD_OK`? -/
  | tell (ok : Bool)
  /-- It frees a process that has ended. -/
  | exit (pid : ℤ)
  deriving DecidableEq

/-- The states of the programs. -/
structure Progs (B : Type) where
  act : ℤ → Act B
  /-- The calls of `dir_lookup` and `file_read` that each process completed. -/
  calls : ℤ → ℕ
  /-- The variables `app_pid` and `shell_waiting` of `sys_proc`. -/
  appPid : ℤ
  shellWaiting : Bool
  /-- Did the last `app_spawn` succeed? -/
  spawnOk : Bool
  /-- What `sys_proc` has done so far. -/
  events : List Event

namespace Progs

variable (env : Env B) (pr : Progs B) (p : ℤ)

/-- The call that a process makes, or makes next. -/
def tag : ℤ × ℕ := (p, pr.calls p)

/-- What a process is about to do. -/
def op (mode : Mode) : Op B := (pr.act p).op mode (pr.tag p)

/-- The process goes on with another activity. -/
def setAct (a : Act B) : Progs B := { pr with act := update pr.act p a }

@[simp]
theorem setAct_self (a : Act B) : (pr.setAct p a).act p = a := update_self _ _ _

theorem setAct_of_ne {q : ℤ} (h : q ≠ p) (a : Act B) : (pr.setAct p a).act q = pr.act q :=
  update_of_ne h _ _

/-- Before the reply to `PROC_SPAWN`, `sys_proc` decides whether the shell waits. -/
def note : Progs B :=
  match pr.act p with
  | .spawned cmd ok =>
      { pr with
        shellWaiting := cmd.foreground
        spawnOk := ok
        events := pr.events ++ [.tell ok] }
  | .exited => { pr with events := pr.events ++ [.tell false] }
  | _ => pr

/-- The process goes on with the reply to its call. -/
def completed (a : Act B) : Progs B :=
  { pr.setAct p a with calls := update pr.calls p (pr.calls p + 1) }

/-- The requests of the shell. -/
def requests : Body B → List Event
  | .spawn cmd => [.request cmd]
  | .killall => [.killall]
  | _ => []

/-- `sys_recv` returns. -/
def received (sender : ℤ) (m : Msg B) : Progs B :=
  match pr.act p with
  | .await _ _ => pr.completed p ((pr.act p).afterRecv env p sender m)
  | .serve =>
      { pr.setAct p ((pr.act p).afterRecv env p sender m) with
        events := pr.events ++ if p = GPID_PROCESS then requests m.body else [] }
  | _ => pr.setAct p ((pr.act p).afterRecv env p sender m)

/-- The call of `p` is answered at once. -/
def answered : Progs B :=
  match pr.act p with
  | .call r k => pr.completed p (Act.resume env k (env.answer r))
  | _ => pr

/-- `proc_alloc` has returned to `sys_proc`, with the pid of a new process. -/
def allocated (pid : ℤ) : Progs B :=
  let new := update pr.act pid (.start pid)
  match pr.act p with
  | .sysAlloc n => { pr with act := update new p (.sysReady n pid) }
  | .appAlloc cmd ino =>
      { pr with
        act := update new p (Act.loadNext env cmd pid ino [])
        appPid := pid
        events := pr.events ++ [.spawn pid] }
  | _ => { pr with act := new }

/-- `proc_set_ready` has returned to `sys_proc`. -/
def readied : Progs B :=
  match pr.act p with
  | .sysReady n _ => pr.setAct p (if n < 2 then .sysWait n else .serve)
  | .appReady cmd _ => pr.setAct p (.spawned cmd true)
  | _ => pr

/-- `proc_free` has returned to `sys_proc`, which tells the shell if it waits for the process. -/
def freed (pid : ℤ) : Progs B :=
  { pr.setAct p
      (if pid ≠ -1 ∧ pr.shellWaiting = true ∧ pr.appPid = pid then .exited else .serve) with
    events := pr.events ++ if pid ≠ -1 then [.exit pid] else [] }

end Progs

/-- The machine and the programs. -/
structure World (B : Type) where
  sys : Sys (Msg B) (Msg B) (Msg B)
  progs : Progs B

/-- What can happen next. -/
inductive Move
  /-- The current process does what it is about to do. -/
  | act
  /-- The current process returns from `sys_send` or `sys_recv`. -/
  | ret
  | intr (id : Kernel.IntrId) (tty : Bool)
  | choose (c : Choice)

namespace World

/-- `memcpy` of a message.  All messages are shorter than 1024 bytes, and the servers and the
programs ask for what they are sent. -/
def copyMsg : Memcpy (Msg B) (Msg B) (Msg B) where
  size _ := SYSCALL_MSG_LEN
  copyIn m _ := m
  copyOut _ m := m

/-- The current process does what it is about to do. -/
def act (env : Env B) (mode : Mode) (w : World B) : Option (World B) :=
  let p := w.sys.curr
  match w.progs.op p mode with
  | .send q m => (w.sys.step copyMsg (.sysSend q m)).map fun s => ⟨s, w.progs.note p⟩
  | .recv => (w.sys.step copyMsg (.sysRecv SYSCALL_MSG_LEN)).map fun s => ⟨s, w.progs⟩
  | .answer => if w.sys.atUser then some ⟨w.sys, w.progs.answered env p⟩ else none
  | .alloc => (w.sys.step copyMsg .procAlloc).map fun s =>
      ⟨s, w.progs.allocated env p (Int.bmod s.kernel.procNprocs (2 ^ 32))⟩
  | .ready pid => (w.sys.step copyMsg (.procSetReady pid)).map fun s => ⟨s, w.progs.readied p⟩
  | .free pid => (w.sys.step copyMsg (.procFree pid)).map fun s => ⟨s, w.progs.freed p pid⟩
  | .none => none

/-- A call returns to the current process. -/
def returned (env : Env B) (w : World B) (s : Sys (Msg B) (Msg B) (Msg B)) : World B :=
  match s.log.getLast? with
  | some (.recv p _ sender m _) => ⟨s, w.progs.received env p sender m⟩
  | some (.send p _ _ _) => ⟨s, w.progs.setAct p (w.progs.act p).afterSend⟩
  | some (.refused _ _) | none => ⟨s, w.progs⟩

/-- **What can happen next, and its effect.** -/
def step (env : Env B) (mode : Mode) (w : World B) : Move → Option (World B)
  | .act => w.act env mode
  | .ret => (w.sys.step copyMsg .ret).map (w.returned env)
  | .intr id tty => (w.sys.step copyMsg (.intr id tty)).map fun s => { w with sys := s }
  | .choose c =>
      if w.sys.atUser then
        ((w.progs.act w.sys.curr).choose c).map fun a =>
          { w with progs := w.progs.setAct w.sys.curr a }
      else none

def run (env : Env B) (mode : Mode) (w : World B) (ls : List Move) : Option (World B) :=
  ls.foldlM (fun w l => w.step env mode l) w

/-- grass starts the first process. -/
def boot (mem : ℤ → Syscall (Msg B)) (registers : Fin 29 → UInt32) : World B :=
  { sys := Sys.boot mem registers
    progs :=
      { act := fun _ => .sysAlloc 0
        calls := fun _ => 0
        appPid := 0
        -- not initialised, and not read before the first `PROC_SPAWN`
        shellWaiting := false
        spawnOk := false
        events := [] } }

/-- A run in which a timer interrupt only comes when the current process has nothing to do.  The
decisions are taken as `choice` says. -/
def schedule (mode : Mode) (choice : World B → Option Choice) (w : World B) : Move :=
  match w.sys.phase w.sys.curr with
  | .sendCall _ _ | .recvCall _ => .intr .soft false
  | .sendTrap _ _ | .recvTrap _ => .ret
  | .user =>
      match choice w with
      | some c => .choose c
      | none =>
          match w.progs.op w.sys.curr mode with
          | .none => .intr .timer false
          | _ => .act

/-- The first moves of this run. -/
def moves (env : Env B) (mode : Mode) (choice : World B → Option Choice) : ℕ → World B → List Move
  | 0, _ => []
  | n + 1, w =>
      let l := w.schedule mode choice
      l :: (w.step env mode l).elim [] (moves env mode choice n)

end World

/-! ### Stages and programs -/

/-- **What a step does** to the stages of the processes, the programs, and the number of processes.
The traps are those that satisfy `T`, and `A` the processes that may act. -/
inductive ProgStep (env : Env B) (mode : Mode) (T : Ev ℤ (Msg B) → Prop) (A : ℤ → Prop)
    (st : ℤ → Stage ℤ (Msg B)) (pr : Progs B) (n : ℕ) :
    (ℤ → Stage ℤ (Msg B)) → Progs B → ℕ → Prop
  | quiet : ProgStep env mode T A st pr n st pr n
  | trap {e : Ev ℤ (Msg B)} {st' : ℤ → Stage ℤ (Msg B)} (hs : Step st e st') (he : T e) :
      ProgStep env mode T A st pr n st' pr n
  | send {p q : ℤ} {m : Msg B} (hA : A p) (hst : st p = .user) (hop : pr.op p mode = .send q m) :
      ProgStep env mode T A st pr n (update st p (.sendCall q m)) (pr.note p) n
  | recv {p : ℤ} (hA : A p) (hst : st p = .user) (hop : pr.op p mode = .recv) :
      ProgStep env mode T A st pr n (update st p .recvCall) pr n
  | answer {p : ℤ} (hA : A p) (hst : st p = .user) (hop : pr.op p mode = .answer) :
      ProgStep env mode T A st pr n st (pr.answered env p) n
  | alloc (hA : A GPID_PROCESS) (hst : st GPID_PROCESS = .user)
      (hop : pr.op GPID_PROCESS mode = .alloc) (hnew : st ((n : ℤ) + 1) = .unborn) :
      ProgStep env mode T A st pr n (update st ((n : ℤ) + 1) .loading)
        (pr.allocated env GPID_PROCESS ((n : ℤ) + 1)) (n + 1)
  | ready {pid : ℤ} (hA : A GPID_PROCESS) (hst : st GPID_PROCESS = .user)
      (hop : pr.op GPID_PROCESS mode = .ready pid) (hpid : st pid = .loading) :
      ProgStep env mode T A st pr n (update st pid .user) (pr.readied GPID_PROCESS) n
  | free {pid : ℤ} (hA : A GPID_PROCESS) (hst : st GPID_PROCESS = .user)
      (hop : pr.op GPID_PROCESS mode = .free pid) (hpid : pid ≠ GPID_PROCESS) :
      ProgStep env mode T A st pr n (fun p => if Sys.goneBy st pid p then .dead else st p)
        (pr.freed GPID_PROCESS pid) n
  | retSend {p q : ℤ} {m : Msg B} {ok : Bool} (hst : st p = .sent q m ok) :
      ProgStep env mode T A st pr n (update st p .user)
        (pr.setAct p (pr.act p).afterSend) n
  | retRecv {p s : ℤ} {m : Msg B} (hst : st p = .got s m) :
      ProgStep env mode T A st pr n (update st p .user) (pr.received env p s m) n
  | choose {p : ℤ} {c : Choice} {a : Act B} (hst : st p = .user)
      (hc : (pr.act p).choose c = some a) : ProgStep env mode T A st pr n st (pr.setAct p a) n

namespace World

variable {env : Env B} {mode : Mode} {w w' : World B} {st : ℤ → Stage ℤ (Msg B)}

/-- The traps that a move can be. -/
def Trap (w : World B) (l : Move) (e : Ev ℤ (Msg B)) : Prop :=
  ∃ tty, l = .intr .soft tty ∧ ¬ (tty = true ∧ w.sys.curr ≥ GPID_USER_START) ∧ w.sys.TrapEv e

theorem eq_of_holds {c a : Msg B} (h : Sys.Holds copyMsg c a) : c = a := by
  obtain ⟨old, rfl⟩ := h
  rfl

/-- The result of a step of the machine with the programs. -/
def Simulated (env : Env B) (mode : Mode) (w : World B) (st : ℤ → Stage ℤ (Msg B)) (l : Move)
    (w' : World B) : Prop :=
  ∃ st', Sys.Sim copyMsg w'.sys st' ∧
    ProgStep env mode (w.Trap l) (fun p => l = .act ∧ p = w.sys.curr) st w.progs
      w.sys.kernel.procNprocs st' w'.progs w'.sys.kernel.procNprocs

/-- Only `GPID_PROCESS` manages processes. -/
theorem manager {l : Label (Msg B)} {s : Sys (Msg B) (Msg B) (Msg B)}
    (hl : l = .procAlloc ∨ (∃ pid, l = .procSetReady pid) ∨ ∃ pid, l = .procFree pid)
    (hs : w.sys.step copyMsg l = some s) : w.sys.atUser = true ∧ w.sys.curr = GPID_PROCESS := by
  rcases hl with rfl | ⟨pid, rfl⟩ | ⟨pid, rfl⟩
  all_goals
    simp only [Sys.step] at hs
    split at hs
    · rename_i hc
      exact ⟨hc.1, by first | exact hc.2 | exact hc.2.1⟩
    · simp at hs

theorem act_simulated (h : Sys.Sim copyMsg w.sys st)
    (hn : w.progs.op w.sys.curr mode = .alloc → w.sys.kernel.procNprocs + 1 < 2 ^ 31)
    (hs : w.act env mode = some w') : w.Simulated env mode st .act w' := by
  rw [act] at hs
  cases hop : w.progs.op w.sys.curr mode with
  | none => simp [hop] at hs
  | send q m =>
      simp only [hop] at hs
      obtain ⟨s, hstep, rfl⟩ := Option.map_eq_some_iff.1 hs
      obtain ⟨hsim, he⟩ := Sys.sim_sysSend h (Nat.le_refl _) hstep
      refine ⟨_, hsim, ?_⟩
      rw [h.step_nprocs_of_ne hstep (by simp)]
      cases he with
      | sysSend hst => exact .send ⟨rfl, rfl⟩ hst hop
  | recv =>
      simp only [hop] at hs
      obtain ⟨s, hstep, rfl⟩ := Option.map_eq_some_iff.1 hs
      obtain ⟨hsim, he⟩ := Sys.sim_sysRecv h (Nat.le_refl _) hstep
      refine ⟨_, hsim, ?_⟩
      rw [h.step_nprocs_of_ne hstep (by simp)]
      cases he with
      | sysRecv hst => exact .recv ⟨rfl, rfl⟩ hst hop
  | answer =>
      simp only [hop] at hs
      split at hs
      · rename_i hu
        obtain rfl := Option.some.inj hs
        exact ⟨st, h, .answer ⟨rfl, rfl⟩ (h.curr_user hu) hop⟩
      · simp at hs
  | alloc =>
      simp only [hop] at hs
      obtain ⟨s, hstep, rfl⟩ := Option.map_eq_some_iff.1 hs
      obtain ⟨hu, hcurr⟩ := manager (Or.inl rfl) hstep
      obtain ⟨pid, rfl, hnp, -, hsim, he⟩ := Sys.sim_procAlloc h (hn hop) hstep
      refine ⟨_, hsim, ?_⟩
      have hbmod : Int.bmod (w.sys.kernel.procNprocs + 1 : ℕ) (2 ^ 32) =
          w.sys.kernel.procNprocs + 1 := by
        have := hn hop
        rw [Int.bmod_eq_of_le] <;> omega
      have hst := h.curr_user hu
      simp only [hnp, hbmod, hcurr]
      rw [hcurr] at hst hop
      cases he with
      | spawn hnew => exact .alloc ⟨trivial, rfl⟩ hst hop hnew
  | ready pid =>
      simp only [hop] at hs
      obtain ⟨s, hstep, rfl⟩ := Option.map_eq_some_iff.1 hs
      obtain ⟨hu, hcurr⟩ := manager (Or.inr (Or.inl ⟨pid, rfl⟩)) hstep
      obtain ⟨hsim, he⟩ := Sys.sim_procSetReady h hstep
      refine ⟨_, hsim, ?_⟩
      have hst := h.curr_user hu
      rw [h.step_nprocs_of_ne hstep (by simp)]
      rw [hcurr] at hst hop ⊢
      cases he with
      | ready hpid => exact .ready ⟨rfl, rfl⟩ hst hop hpid
  | free pid =>
      simp only [hop] at hs
      obtain ⟨s, hstep, rfl⟩ := Option.map_eq_some_iff.1 hs
      obtain ⟨hu, hcurr⟩ := manager (Or.inr (Or.inr ⟨pid, rfl⟩)) hstep
      obtain ⟨hsim, -⟩ := Sys.sim_procFree h hstep
      refine ⟨_, hsim, ?_⟩
      have hst := h.curr_user hu
      rw [h.step_nprocs_of_ne hstep (by simp)]
      rw [hcurr] at hst hop ⊢
      refine .free ⟨rfl, rfl⟩ hst hop ?_
      simp only [Sys.step] at hstep
      split at hstep
      · rename_i hc
        exact hc.2.2
      · simp at hstep

/-- **Every step of the machine is a step of the stages and the programs.** -/
theorem progStep {l : Move} (h : Sys.Sim copyMsg w.sys st)
    (hn : l = .act → w.progs.op w.sys.curr mode = .alloc → w.sys.kernel.procNprocs + 1 < 2 ^ 31)
    (hs : w.step env mode l = some w') : w.Simulated env mode st l w' := by
  cases l with
  | act => exact act_simulated h (hn rfl) hs
  | ret =>
      simp only [step] at hs
      obtain ⟨s, hstep, rfl⟩ := Option.map_eq_some_iff.1 hs
      have hnp := h.step_nprocs_of_ne hstep (by simp)
      obtain ⟨hsim, ⟨q, m, ok, -, hlog, he⟩ | ⟨t, m, c, n, -, -, hc, hlog, he⟩⟩ :=
        Sys.sim_ret h hstep
      · have hw : w.returned env s = ⟨s, w.progs.setAct w.sys.curr
            (w.progs.act w.sys.curr).afterSend⟩ := by
          simp only [returned, hlog, List.getLast?_append, List.getLast?_singleton, Option.some_or]
        rw [hw]
        refine ⟨_, hsim, ?_⟩
        rw [hnp]
        cases he with
        | retSend hst => exact .retSend hst
      · have hw : w.returned env s = ⟨s, w.progs.received env w.sys.curr t c⟩ := by
          simp only [returned, hlog, List.getLast?_append, List.getLast?_singleton, Option.some_or]
          rfl
        rw [hw, eq_of_holds hc]
        refine ⟨_, hsim, ?_⟩
        rw [hnp]
        cases he with
        | retRecv hst => exact .retRecv hst
  | intr id tty =>
      simp only [step] at hs
      obtain ⟨s, hstep, rfl⟩ := Option.map_eq_some_iff.1 hs
      have hnp := h.step_nprocs_of_ne hstep (by simp)
      cases id with
      | timer =>
          refine ⟨st, Sys.sim_timer h hstep, ?_⟩
          rw [hnp]
          exact .quiet
      | soft =>
          rcases Sys.sim_soft h hstep with ⟨hsim, -⟩ | ⟨hc, st', e, hsim, he, hev⟩
          · refine ⟨st, hsim, ?_⟩
            rw [hnp]
            exact .quiet
          · refine ⟨st', hsim, ?_⟩
            rw [hnp]
            exact .trap he ⟨tty, rfl, hc, hev⟩
  | choose c =>
      simp only [step] at hs
      split at hs
      · rename_i hu
        obtain ⟨a, ha, rfl⟩ := Option.map_eq_some_iff.1 hs
        exact ⟨st, h, .choose (h.curr_user hu) ha⟩
      · simp at hs

/-- Only returns are logged. -/
theorem step_log {l : Move} (hs : w.step env mode l = some w') (hl : l ≠ .ret) :
    w'.sys.log = w.sys.log := by
  cases l with
  | ret => exact absurd rfl hl
  | intr id tty =>
      obtain ⟨s, hstep, rfl⟩ := Option.map_eq_some_iff.1 hs
      exact Sys.step_log hstep (by simp) trivial
  | choose c =>
      simp only [step] at hs
      split at hs
      · obtain ⟨a, -, rfl⟩ := Option.map_eq_some_iff.1 hs
        rfl
      · simp at hs
  | act =>
      simp only [step, act] at hs
      cases hop : w.progs.op w.sys.curr mode with
      | none => simp [hop] at hs
      | answer =>
          simp only [hop] at hs
          split at hs
          · rw [← Option.some.inj hs]
          · simp at hs
      | send | recv =>
          simp only [hop] at hs
          obtain ⟨s, hstep, rfl⟩ := Option.map_eq_some_iff.1 hs
          exact Sys.step_log hstep (by simp) (Nat.le_refl _)
      | alloc | ready | free =>
          simp only [hop] at hs
          obtain ⟨s, hstep, rfl⟩ := Option.map_eq_some_iff.1 hs
          exact Sys.step_log hstep (by simp) trivial

end World

end Egos
