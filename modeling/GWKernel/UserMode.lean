import GWKernel.Lib.Memory

/-! The way into ring 3 and back (kernel/process/process_asm.S, isr_stub_128 of
kernel/arch/x86_64/interrupts/isr.S, and the C functions between them). Compiled C functions keep
to the System V convention and leave the rest arbitrary. -/

namespace GWKernel.UserMode
open Lib

inductive Reg where
  | rax | rbx | rcx | rdx | rsi | rdi | rbp | rsp
  | r8 | r9 | r10 | r11 | r12 | r13 | r14 | r15
deriving DecidableEq, Repr

inductive Seg where
  | ds | es | ss
deriving DecidableEq, Repr

/-- The processor and the memory, with the fields of `current_proc` and `last_exit_code`. -/
structure Machine where
  regs : Reg → UInt64
  mem : Mem
  rip : UInt64
  cs : UInt64
  rflags : UInt64
  segs : Seg → UInt64
  active : Bool
  exitCode : UInt32
  lastExitCode : UInt64

/-- Addresses that the linker assigns. -/
structure Image where
  processUserResume : UInt64
  isrStub128 : UInt64
  /-- `&current_proc.kernel_rsp` -/
  kernelRsp : UInt64
  userKstack : UInt64

namespace Machine

def sp (m : Machine) : Nat := (m.regs .rsp).toNat

def set (m : Machine) (reg : Reg) (value : UInt64) : Machine :=
  { m with regs := fun other => if other = reg then value else m.regs other }

def setSeg (m : Machine) (seg : Seg) (value : UInt64) : Machine :=
  { m with segs := fun other => if other = seg then value else m.segs other }

def push (m : Machine) (value : UInt64) : Machine :=
  let m := m.set .rsp (m.regs .rsp - 8)
  { m with mem := setWord m.mem m.sp value }

def pop (m : Machine) (reg : Reg) : Machine :=
  let value := word m.mem m.sp
  (m.set .rsp (m.regs .rsp + 8)).set reg value

/-- `iretq` pops five words in 64-bit mode, whatever the privilege level. -/
def iretq (m : Machine) : Machine :=
  let back := { m with rip := word m.mem m.sp, cs := word m.mem (m.sp + 8), rflags := word m.mem (m.sp + 16) }
  (back.setSeg .ss (word m.mem (m.sp + 32))).set .rsp (word m.mem (m.sp + 24))

def ret (m : Machine) : Machine :=
  { m.set .rsp (m.regs .rsp + 8) with rip := word m.mem m.sp }

end Machine

inductive Instr where
  | push (reg : Reg)
  | pushImm (value : UInt64)
  | pop (reg : Reg)
  | mov (dst src : Reg)
  /-- `mov %src, (%base)` -/
  | store (base src : Reg)
  /-- `mov $value, %ax` -/
  | movAx (value : UInt64)
  /-- `mov %ax, %seg` -/
  | movSeg (seg : Seg)
  | addRsp (value : UInt64)
  | cli
  | iretq
  | ret
deriving Repr

def Instr.exec (m : Machine) : Instr → Machine
  | .push reg => m.push (m.regs reg)
  | .pushImm value => m.push value
  | .pop reg => m.pop reg
  | .mov dst src => m.set dst (m.regs src)
  | .store base src => { m with mem := setWord m.mem (m.regs base).toNat (m.regs src) }
  | .movAx value => m.set .rax (m.regs .rax / 0x10000 * 0x10000 + value)
  | .movSeg seg => m.setSeg seg (m.regs .rax % 0x10000)
  | .addRsp value => m.set .rsp (m.regs .rsp + value)
  | .cli => { m with rflags := m.rflags &&& 0xFFFFFFFFFFFFFDFF }
  | .iretq => m.iretq
  | .ret => m.ret

def exec (code : List Instr) (m : Machine) : Machine := code.foldl Instr.exec m

def processSwitchToUser : List Instr :=
  [.store .rdx .rsp, .cli, .movAx 0x23, .movSeg .ds, .movSeg .es,
    .pushImm 0x23, .push .rsi, .pushImm 0x202, .pushImm 0x1B, .push .rdi, .iretq]

def processUserResume : List Instr := [.movAx 0x10, .movSeg .ds, .movSeg .es, .movSeg .ss, .ret]

/-- The registers that the stub saves, in the order of the pushes. -/
def savedRegs : List Reg :=
  [.rax, .rbx, .rcx, .rdx, .rsi, .rdi, .rbp, .r8, .r9, .r10, .r11, .r12, .r13, .r14, .r15]

/-- `isr_stub_128` up to the call. -/
def isrStub128Entry : List Instr := [.pushImm 0, .pushImm 128] ++ savedRegs.map .push ++ [.mov .rdi .rsp]

/-- `isr_stub_128` after the call. -/
def isrStub128Exit : List Instr := savedRegs.reverse.map .pop ++ [.addRsp 16, .iretq]

def sysExit : UInt64 := 1

def userStackTop : UInt64 := 0x403000

def fieldRdi : Nat := 9
def fieldRsi : Nat := 10
def fieldRdx : Nat := 11
def fieldRcx : Nat := 12
def fieldRax : Nat := 14
def fieldRip : Nat := 17
def fieldCs : Nat := 18
def fieldRflags : Nat := 19
def fieldRsp : Nat := 20
def fieldSs : Nat := 21

def loadField (m : Machine) (f field : Nat) : UInt64 := word m.mem (f + 8 * field)

def storeField (m : Machine) (f field : Nat) (value : UInt64) : Machine :=
  { m with mem := setWord m.mem (f + 8 * field) value }

/-- `process_handle_exit`: whether the frame has been rewritten. -/
def processHandleExit (image : Image) (f : Nat) (code : UInt64) (m : Machine) : Bool × Machine :=
  if m.active = false then (false, m)
  else
    let m := { m with exitCode := code.toUInt32, lastExitCode := code, active := false }
    let m := storeField m f fieldRip image.processUserResume
    let m := storeField m f fieldCs 0x08
    let m := storeField m f fieldRflags 0x202
    let m := storeField m f fieldRsp (word m.mem image.kernelRsp.toNat)
    let m := storeField m f fieldSs 0x10
    (true, storeField m f fieldRax code)

/-- `syscall_dispatch`: the number and four arguments. -/
abbrev Dispatch := UInt64 → UInt64 → UInt64 → UInt64 → UInt64 → Machine → UInt64 × Machine

def dispatchFrame (dispatch : Dispatch) (f : Nat) (m : Machine) : Machine :=
  let (result, m) := dispatch (loadField m f fieldRax) (loadField m f fieldRdi) (loadField m f fieldRsi)
    (loadField m f fieldRdx) (loadField m f fieldRcx) m
  storeField m f fieldRax result

def syscallEntryC (image : Image) (dispatch : Dispatch) (f : Nat) (m : Machine) : Machine :=
  if loadField m f fieldRax = sysExit ∧ loadField m f fieldCs &&& 3 = 3 then
    match processHandleExit image f (loadField m f fieldRdi) m with
    | (true, m) => m
    | (false, m) => dispatchFrame dispatch f m
  else dispatchFrame dispatch f m

/-- The registers that a function keeps for its caller. -/
def calleeSaved : List Reg := [.rbx, .rbp, .r12, .r13, .r14, .r15]

/-- What a compiled function leaves behind where the convention does not bind it. -/
structure Scratch where
  regs : Reg → UInt64
  mem : Mem
  rflags : UInt64

/-- The call of a function that gets the frame pointer in `rdi` and works on the
interrupt stack below it. -/
def callC (image : Image) (scratch : Scratch) (code : Nat → Machine → Machine) (m : Machine) : Machine :=
  let after := code (m.regs .rdi).toNat m
  { after with
    regs := fun reg => if reg = .rsp ∨ reg ∈ calleeSaved then m.regs reg else scratch.regs reg
    mem := fun address =>
      if image.userKstack.toNat ≤ address ∧ address < m.sp then scratch.mem address else after.mem address
    rflags := scratch.rflags }

/-- `tss.rsp0` while a process runs: the end of `user_kstack`. -/
def rsp0 (image : Image) : UInt64 := image.userKstack + 16384

/-- `int 0x80` in ring 3: an interrupt gate to the kernel code segment. -/
def interrupt (image : Image) (m : Machine) : Machine :=
  let entered := (((((m.set .rsp (UInt64.ofNat ((rsp0 image).toNat / 16 * 16))).push (m.segs .ss)).push
    (m.regs .rsp)).push m.rflags).push m.cs).push m.rip
  { entered.setSeg .ss 0 with rip := image.isrStub128, cs := 0x08, rflags := m.rflags &&& 0xFFFFFFFFFFFFFDFF }

def isrStub128 (image : Image) (dispatch : Dispatch) (scratch : Scratch) (m : Machine) : Machine :=
  exec isrStub128Exit (callC image scratch (syscallEntryC image dispatch) (exec isrStub128Entry m))

/-- The end of `enter_at`: the call of `process_switch_to_user` that returns to `back`. -/
def enterAt (image : Image) (entry back : UInt64) (m : Machine) : Machine :=
  let m := { m with active := true, exitCode := 0xFFFFFFFF, lastExitCode := 0xFFFFFFFFFFFFFFFF }
  let m := ((m.set .rdi entry).set .rsi userStackTop).set .rdx image.kernelRsp
  exec processSwitchToUser (m.push back)

/-- A system call in ring 3, followed by `process_user_resume` when `iretq` leads there. -/
def returnFrom (image : Image) (dispatch : Dispatch) (scratch : Scratch) (m : Machine) : Option Machine :=
  let m := isrStub128 image dispatch scratch (interrupt image m)
  if m.rip = image.processUserResume then some (exec processUserResume m) else none

end GWKernel.UserMode
