import FastSafeIO.StackFile

/-! The events file and main of reader.c. A file of bytes and a text of characters; the programs it
starts and the files it opens come from outside. -/
namespace EventFile
open ByteWords TextTables StackFile

/-- struct data_t -/
structure DataT where
  domain : UInt32
  funcName : UInt32
  pid : UInt32
  tid : UInt32
  cpuId : UInt32
  timestampNs : UInt64
  durationNs : UInt64
  kernStackId : Int64
  userStackId : Int64

/-- The compiler puts four bytes between cpu_id and timestamp_ns. -/
def layout : List Nat := [4, 4, 4, 4, 4, 4, 8, 8, 8, 8]

def EVENT_SIZE : Nat := 56

def decodeEvent (bytes : List UInt8) : DataT :=
  let word := fun i => (fieldsOf layout bytes).getD i 0
  { domain := UInt32.ofNat (word 0)
    funcName := UInt32.ofNat (word 1)
    pid := UInt32.ofNat (word 2)
    tid := UInt32.ofNat (word 3)
    cpuId := UInt32.ofNat (word 4)
    timestampNs := UInt64.ofNat (word 6)
    durationNs := UInt64.ofNat (word 7)
    kernStackId := (UInt64.ofNat (word 8)).toInt64
    userStackId := (UInt64.ofNat (word 9)).toInt64 }

def funcNameToString (fn : UInt32) : List Char :=
  if fn = 0 then "iommu_map".toList
  else if fn = 1 then "__iommu_map".toList
  else if fn = 2 then "intel_iommu_iotlb_sync_map".toList
  else if fn = 3 then "iommu_unmap".toList
  else if fn = 6 then "__iommu_unmap".toList
  else if fn = 7 then "intel_iommu_tlb_sync".toList
  else "UnknownFunction".toList

def domainName (domain : UInt32) : List Char :=
  if domain = 0 then "GUEST".toList else if domain = 1 then "HOST".toList else "QEMU".toList

/-- printf %llx -/
def printHex (n : Nat) : List Char := Nat.toDigits 16 n

def padLeft (c : Char) (places : Nat) (text : List Char) : List Char :=
  List.replicate (places - text.length) c ++ text

/-- What main takes from outside: files and the error when one cannot be opened, what a command
    prints if it can be started, memory, and errno while a file is read. -/
structure Outside where
  fopen : List Char → Except (List Char) (List UInt8)
  popen : List Char → Option (List Char)
  granted : Nat → Bool
  errno : List Char

inductive Write where
  | stdout (text : List Char)
  | stderr (text : List Char)

/-- fgets: up to room characters and no more than one line, and what is left. -/
def fgets : Nat → List Char → List Char × List Char
  | 0, text => ([], text)
  | _, [] => ([], [])
  | room + 1, c :: rest =>
    if c = '\n' then ([c], rest) else (c :: (fgets room rest).1, (fgets room rest).2)

theorem fgets_left (room : Nat) (text : List Char) : (fgets room text).2.length ≤ text.length := by
  induction text generalizing room with
  | nil => cases room <;> exact Nat.le_refl _
  | cons c rest ih =>
    cases room with
    | zero => exact Nat.le_refl _
    | succ room =>
      rw [fgets]
      split
      · simp
      · exact Nat.le_succ_of_le (ih room)

/-- What fgets returns with a buffer of 512, again and again. -/
def fgetsAll (text : List Char) : List (List Char) :=
  match text with
  | [] => []
  | c :: rest => (fgets 511 (c :: rest)).1 :: fgetsAll (fgets 511 (c :: rest)).2
termination_by text.length
decreasing_by
  rw [fgets, List.length_cons]
  split
  · exact Nat.lt_succ_self _
  · exact Nat.lt_succ_of_le (fgets_left 510 rest)

/-- printf %s stops at the first zero byte. -/
def printString (text : List Char) : List Char := text.takeWhile (· ≠ Char.ofNat 0)

def resolveAndPrint (o : Outside) (binaryPath : List Char) (ip : UInt64) : List Write :=
  let cmd := ("addr2line -f -C -e ".toList ++ binaryPath ++ ' ' :: printHex ip.toNat ++
    " 2>/dev/null".toList).take 511
  match o.popen cmd with
  | none => [.stderr ("    [addr2line error for ".toList ++ binaryPath ++ " at 0x".toList ++
      printHex ip.toNat ++ "]\n".toList)]
  | some text => (fgetsAll text).map fun line => .stdout ("    ".toList ++ printString line)

/-- The kernel's frames are numbered, QEMU's are not. -/
def printFrames (o : Outside) (numbered : Bool) (binaryPath : List Char) :
    Nat → List UInt64 → List Write
  | _, [] => []
  | i, ip :: ips =>
    (if numbered then [.stdout ("    [".toList ++ padLeft ' ' 2 (printNat i) ++ "] 0x".toList ++
        padLeft '0' 16 (printHex ip.toNat) ++ "\n".toList)] else []) ++
      resolveAndPrint o binaryPath ip ++ printFrames o numbered binaryPath (i + 1) ips

def printStack (o : Outside) (table : List StackEntry) (title : List Char) (numbered : Bool)
    (binaryPath : List Char) (stackId : Int64) : List Write :=
  if 0 ≤ stackId then
    let sid := stackId.toUInt64.toUInt32
    let (ips, fc) := lookupStack table sid
    if fc > 0 then
      .stdout ("  ".toList ++ title ++ " Stack (id=".toList ++ printNat sid.toNat ++ ", ".toList ++
        printNat fc.toNat ++ " frames):\n".toList) :: printFrames o numbered binaryPath 0 ips
    else
      [.stdout ("  ".toList ++ title ++ " Stack: [no frames or not found for id=".toList ++
        printNat sid.toNat ++ "]\n".toList)]
  else []

def eventHeader (e : DataT) : List Char :=
  "EVENT: domain=".toList ++ domainName e.domain ++ " func=".toList ++ funcNameToString e.funcName ++
    " pid=".toList ++ printNat e.pid.toNat ++ " tid=".toList ++ printNat e.tid.toNat ++
    " cpu=".toList ++ printNat e.cpuId.toNat ++ " ts_ns=".toList ++ printNat e.timestampNs.toNat ++
    " dur_ns=".toList ++ printNat e.durationNs.toNat

def printEvent (o : Outside) (table : List StackEntry) (vmlinuxPath qemuPath : List Char) (e : DataT) :
    List Write :=
  .stdout (eventHeader e ++ "\n".toList) ::
    (printStack o table "Kernel".toList true vmlinuxPath e.kernStackId ++
      printStack o table "User".toList false qemuPath e.userStackId ++ [.stdout "\n".toList])

/-- The loop over the events file. -/
def eventLoop (each : DataT → List Write) (f : File) : List Write :=
  if _some : (f.fread EVENT_SIZE 1).items = 1 then
    each (decodeEvent (f.fread EVENT_SIZE 1).bytes) ++ eventLoop each (f.fread EVENT_SIZE 1).file
  else []
termination_by f.rest.length
decreasing_by
  have enough := (fread_items (by decide : 0 < EVENT_SIZE) f).mp _some
  have positive : 0 < EVENT_SIZE := by decide
  simp only [File.fread, List.length_drop]
  omega

def usage (argv : List (List Char)) : List Char :=
  "Usage: ".toList ++ argv.headD [] ++ " <events_file> <stacks_file> <vmlinux_path> <qemu_path>\n".toList ++
    "  events_file:    binary dump of struct data_t from tracer\n".toList ++
    "  stacks_file:    binary dump of (stack_id, frame_count, ips[])\n".toList ++
    "  vmlinux_path:   path to the vmlinux image for kernel symbols\n".toList ++
    "  qemu_path:      path to the QEMU binary for user symbols\n".toList

def fopenError (which path reason : List Char) : List Char :=
  "ERROR: fopen ".toList ++ which ++ " '".toList ++ path ++ "': ".toList ++ reason ++ "\n".toList

/-- The exit code and what was written. -/
def main (o : Outside) (argv : List (List Char)) : Nat × List Write :=
  match argv with
  | [_, eventsPath, stacksPath, vmlinuxPath, qemuPath] =>
    match o.fopen stacksPath with
    | .error reason => (1, [.stderr (fopenError "stacks_file".toList stacksPath reason)])
    | .ok stackBytes =>
      match load o.granted o.errno stackBytes with
      | .error e => (1, [.stderr (e.message ++ "\n".toList)])
      | .ok table =>
        let loaded := Write.stdout ("Loaded ".toList ++ printNat table.length ++ " stack(s) from '".toList ++
          stacksPath ++ "'\n".toList)
        match o.fopen eventsPath with
        | .error reason => (1, [loaded, .stderr (fopenError "events_file".toList eventsPath reason)])
        | .ok eventBytes =>
          (0, loaded :: eventLoop (printEvent o table vmlinuxPath qemuPath) ⟨eventBytes, false⟩)
  | _ => (1, [.stderr (usage argv)])

end EventFile
