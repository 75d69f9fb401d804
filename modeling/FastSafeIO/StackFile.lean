import FastSafeIO.ByteWords
import FastSafeIO.TextTables

/-! The stacks file and the loop of reader.c that loads it. -/
namespace StackFile
open ByteWords TextTables

/-- A stack and its frames, as many as it says. -/
@[ext] structure StackEntry where
  stackId : UInt32
  frameCount : UInt32
  ips : List UInt64
  whole : ips.length = frameCount.toNat

/-- The frames found, and how many; no stack is found as none. -/
def lookupStack (entries : List StackEntry) (sid : UInt32) : List UInt64 × UInt32 :=
  match entries with
  | [] => ([], 0)
  | e :: rest => if e.stackId = sid then (e.ips, e.frameCount) else lookupStack rest sid

/-- What is left to read, and the end-of-file indicator. -/
structure File where
  rest : List UInt8
  eof : Bool

structure Fread where
  bytes : List UInt8
  items : Nat
  file : File

/-- fread: the whole items among the bytes that are there. -/
def File.fread (f : File) (size count : Nat) : Fread where
  bytes := f.rest.take (size * count)
  items := (f.rest.take (size * count)).length / size
  file := ⟨f.rest.drop (size * count), f.eof || f.rest.length < size * count⟩

inductive LoadError where
  | stackId (errno : List Char)
  | frameCount (sid : UInt32)
  | malloc (frameCount : UInt32)
  | ips (sid : UInt32)
  | realloc
  deriving DecidableEq, Repr

def LoadError.message : LoadError → List Char
  | .stackId errno => "ERROR: reading stack_id: ".toList ++ errno
  | .frameCount sid => "ERROR: reading frame_count for stack_id ".toList ++ printNat sid.toNat
  | .malloc count => "ERROR: malloc for ips[".toList ++ printNat count.toNat ++ [']']
  | .ips sid => "ERROR: reading IPs for stack_id ".toList ++ printNat sid.toNat
  | .realloc => "ERROR: realloc for stacks array".toList

section
-- which requests for memory are granted, and what strerror says
variable (granted : Nat → Bool) (errno : List Char)

/-- The stack with its frames, and the file after them. -/
def readIps (sid frameCount : UInt32) (f : File) : Except LoadError (StackEntry × File) :=
  if some_frame : frameCount > 0 then
    if !granted (frameCount.toNat * 8) then .error (.malloc frameCount)
    else
      let r := f.fread 8 frameCount.toNat
      if r.items ≠ frameCount.toNat then .error (.ips sid)
      else
        let ips := (wordsOf 8 frameCount.toNat r.bytes).map UInt64.ofNat
        .ok (⟨sid, frameCount, ips, by simp [ips]⟩, r.file)
  else .ok (⟨sid, frameCount, [], (Nat.eq_zero_of_not_pos some_frame).symm⟩, f)

/-- How one pass of the loop ends. -/
inductive Pass where
  | stop
  | fail (e : LoadError)
  | append (e : StackEntry) (f : File)

def readRecord (numStacks : Nat) (f : File) : Pass :=
  let r := f.fread 4 1
  if r.items ≠ 1 then
    if r.file.eof then .stop else .fail (.stackId errno)
  else
    let sid := UInt32.ofNat (ofBytes r.bytes)
    let r := r.file.fread 4 1
    if r.items ≠ 1 then .fail (.frameCount sid)
    else
      let frameCount := UInt32.ofNat (ofBytes r.bytes)
      match readIps granted sid frameCount r.file with
      | .error e => .fail e
      | .ok (e, f) => if !granted ((numStacks + 1) * 16) then .fail .realloc else .append e f

theorem read_ips_rest {sid frameCount : UInt32} {f g : File} {e : StackEntry}
    (read : readIps granted sid frameCount f = .ok (e, g)) : g.rest.length ≤ f.rest.length := by
  unfold readIps at read
  split at read
  · split at read
    · cases read
    · dsimp only at read
      split at read
      · cases read
      · cases read
        simp [File.fread]
  · cases read
    exact Nat.le_refl _

theorem record_shrinks {numStacks : Nat} {f g : File} {e : StackEntry}
    (read : readRecord granted errno numStacks f = .append e g) :
    g.rest.length < f.rest.length := by
  unfold readRecord at read
  dsimp only at read
  split at read
  · split at read <;> cases read
  · rename_i whole
    split at read
    · cases read
    · split at read
      · cases read
      · rename_i e h frames
        split at read
        · cases read
        · cases read
          have later := read_ips_rest granted frames
          simp only [File.fread, List.length_drop, List.length_take] at later whole
          omega

/-- The loop; each record is put at the end of the array. -/
def loadStacks (entries : List StackEntry) (f : File) : Except LoadError (List StackEntry) :=
  match _read : readRecord granted errno entries.length f with
  | .stop => .ok entries
  | .fail e => .error e
  | .append e g => loadStacks (entries ++ [e]) g
termination_by f.rest.length
decreasing_by exact record_shrinks granted errno _read

/-- A freshly opened file. -/
def load (bytes : List UInt8) : Except LoadError (List StackEntry) :=
  loadStacks granted errno [] ⟨bytes, false⟩

end

def encodeIps (ips : List UInt64) : List UInt8 := (ips.map UInt64.toNat).flatMap (toBytes 8)

/-- A complete record. -/
def encodeEntry (e : StackEntry) : List UInt8 :=
  toBytes 4 e.stackId.toNat ++ (toBytes 4 e.frameCount.toNat ++ encodeIps e.ips)

def encode (entries : List StackEntry) : List UInt8 := entries.flatMap encodeEntry

section
variable {size count : Nat} {f : File} {front : List UInt8}

theorem fread_whole (positive : 0 < size) (length : front.length = size * count)
    (rest : List UInt8) (eof : Bool) :
    (File.mk (front ++ rest) eof).fread size count = ⟨front, count, ⟨rest, eof⟩⟩ := by
  have enough : ¬ (front ++ rest).length < size * count := by
    rw [List.length_append]
    omega
  unfold File.fread
  dsimp only
  rw [List.take_left' length, List.drop_left' length, length, Nat.mul_div_cancel_left count positive,
    decide_eq_false enough, Bool.or_false]

theorem fread_items (positive : 0 < size) (f : File) :
    (f.fread size count).items = count ↔ size * count ≤ f.rest.length := by
  have part : (f.rest.take (size * count)).length ≤ f.rest.length := List.length_take_le' ..
  have cut : (f.rest.take (size * count)).length ≤ size * count := List.length_take_le ..
  unfold File.fread
  dsimp only
  constructor
  · intro items
    have whole := Nat.mul_div_le (f.rest.take (size * count)).length size
    rw [items] at whole
    omega
  · intro enough
    rw [List.length_take_of_le enough, Nat.mul_div_cancel_left count positive]

theorem fread_eof (short : f.rest.length < size * count) : (f.fread size count).file.eof = true := by
  unfold File.fread
  dsimp only
  rw [decide_eq_true short, Bool.or_true]

theorem fread_split (enough : size * count ≤ f.rest.length) :
    f.rest = (f.fread size count).bytes ++ (f.fread size count).file.rest ∧
    (f.fread size count).bytes.length = size * count ∧
    (f.fread size count).file.eof = f.eof := by
  have here : ¬ f.rest.length < size * count := Nat.not_lt.mpr enough
  unfold File.fread
  dsimp only
  refine ⟨(List.take_append_drop _ _).symm, List.length_take_of_le enough, ?_⟩
  rw [decide_eq_false here, Bool.or_false]

theorem encode_ips_length (ips : List UInt64) : (encodeIps ips).length = 8 * ips.length := by
  unfold encodeIps
  induction ips with
  | nil => rfl
  | cons ip ips ih =>
    rw [List.map_cons, List.flatMap_cons, List.length_append, ih, to_bytes_length, List.length_cons]
    omega

theorem words_encode_ips (ips : List UInt64) :
    (wordsOf 8 ips.length (encodeIps ips)).map UInt64.ofNat = ips := by
  have small : ∀ n ∈ ips.map UInt64.toNat, n < 256 ^ 8 := by
    intro n member
    obtain ⟨ip, _, rfl⟩ := List.mem_map.mp member
    exact ip.toNat_lt
  have words := words_of_concat (ips.map UInt64.toNat) small
  rw [List.length_map] at words
  unfold encodeIps
  rw [words, List.map_map]
  have same : UInt64.ofNat ∘ UInt64.toNat = id := funext fun ip => UInt64.ofNat_toNat
  rw [same, List.map_id]

theorem encode_words {bs : List UInt8} (length : bs.length = 8 * count) :
    encodeIps ((wordsOf 8 count bs).map UInt64.ofNat) = bs := by
  have values : ((wordsOf 8 count bs).map UInt64.ofNat).map UInt64.toNat = wordsOf 8 count bs := by
    have same : ∀ n ∈ wordsOf 8 count bs, (UInt64.toNat ∘ UInt64.ofNat) n = id n := by
      intro n member
      exact UInt64.toNat_ofNat_of_lt' (words_of_lt n member)
    rw [List.map_map, List.map_congr_left same, List.map_id]
  unfold encodeIps
  rw [values, concat_words_of length]

theorem uint32_encode {bs : List UInt8} (length : bs.length = 4 * 1) :
    toBytes 4 (UInt32.ofNat (ofBytes bs)).toNat = bs := by
  have small := of_bytes_lt bs
  have word := to_of_bytes bs
  rw [length] at small word
  rw [UInt32.toNat_ofNat_of_lt' small]
  exact word

theorem uint32_decode (n : UInt32) : UInt32.ofNat (ofBytes (toBytes 4 n.toNat)) = n := by
  rw [of_to_bytes n.toNat_lt, UInt32.ofNat_toNat]

end

section
variable {granted : Nat → Bool} {errno : List Char} {sid frameCount : UInt32} {numStacks : Nat}
  {e : StackEntry} {f g : File} {bytes rest : List UInt8}

theorem read_ips_encoded (plenty : ∀ n, granted n = true) (e : StackEntry) (rest : List UInt8) :
    readIps granted e.stackId e.frameCount ⟨encodeIps e.ips ++ rest, false⟩ =
      .ok (e, ⟨rest, false⟩) := by
  obtain ⟨sid, frameCount, ips, whole⟩ := e
  unfold readIps
  dsimp only
  by_cases some_frame : frameCount > 0
  · have length : (encodeIps ips).length = 8 * frameCount.toNat := by
      rw [encode_ips_length, whole]
    have words := words_encode_ips ips
    rw [whole] at words
    have read := fread_whole (by decide : 0 < 8) length rest false
    simp only [some_frame, dif_pos, plenty, read, words, Bool.not_true, Bool.false_eq_true, ne_eq,
      not_true_eq_false, if_false]
  · have none : ips = [] := by
      rw [← List.length_eq_zero_iff, whole]
      exact Nat.eq_zero_of_not_pos some_frame
    subst none
    rw [dif_neg some_frame]
    rfl

theorem read_ips_split (read : readIps granted sid frameCount f = .ok (e, g)) :
    e.stackId = sid ∧ e.frameCount = frameCount ∧ f.rest = encodeIps e.ips ++ g.rest ∧
    g.eof = f.eof := by
  unfold readIps at read
  split at read
  · split at read
    · cases read
    · dsimp only at read
      split at read
      · cases read
      · rename_i items
        have enough := (fread_items (by decide : 0 < 8) f).mp (not_not.mp items)
        obtain ⟨parts, length, eof⟩ := fread_split enough
        cases read
        dsimp only
        rw [encode_words length]
        exact ⟨rfl, rfl, parts, eof⟩
  · cases read
    exact ⟨rfl, rfl, rfl, rfl⟩

theorem record_stop (short : f.rest.length < 4) :
    readRecord granted errno numStacks f = .stop := by
  have items : (f.fread 4 1).items ≠ 1 := by
    rw [Ne, fread_items (by decide)]
    omega
  unfold readRecord
  dsimp only
  rw [if_pos items, if_pos (fread_eof (by omega))]

theorem record_encoded (plenty : ∀ n, granted n = true) (e : StackEntry) (rest : List UInt8) :
    readRecord granted errno numStacks ⟨encodeEntry e ++ rest, false⟩ = .append e ⟨rest, false⟩ := by
  have id_length : (toBytes 4 e.stackId.toNat).length = 4 * 1 := to_bytes_length ..
  have count_length : (toBytes 4 e.frameCount.toNat).length = 4 * 1 := to_bytes_length ..
  have four : 0 < 4 := by decide
  unfold readRecord encodeEntry
  rw [List.append_assoc, List.append_assoc]
  dsimp only
  rw [fread_whole four id_length, if_neg (not_not.mpr rfl)]
  dsimp only
  rw [fread_whole four count_length, if_neg (not_not.mpr rfl), uint32_decode]
  dsimp only
  rw [uint32_decode, read_ips_encoded plenty]
  simp [plenty]

theorem record_split (read : readRecord granted errno numStacks f = .append e g) :
    f.rest = encodeEntry e ++ g.rest ∧ g.eof = f.eof := by
  unfold readRecord at read
  dsimp only at read
  split at read
  · split at read <;> cases read
  · rename_i first
    split at read
    · cases read
    · rename_i second
      split at read
      · cases read
      · rename_i e h frames
        split at read
        · cases read
        · cases read
          have four : 0 < 4 := by decide
          obtain ⟨front, front_length, front_eof⟩ :=
            fread_split ((fread_items four _).mp (not_not.mp first))
          obtain ⟨next, next_length, next_eof⟩ :=
            fread_split ((fread_items four _).mp (not_not.mp second))
          obtain ⟨sid, count, last, last_eof⟩ := read_ips_split frames
          unfold encodeEntry
          rw [sid, count, uint32_encode front_length, uint32_encode next_length, List.append_assoc,
            List.append_assoc, ← last, ← next, ← front, last_eof, next_eof, front_eof]
          exact ⟨rfl, rfl⟩

theorem record_stops_short (stopped : readRecord granted errno numStacks f = .stop) :
    f.rest.length < 4 := by
  by_contra enough
  have items : (f.fread 4 1).items = 1 := (fread_items (by decide) f).mpr (by omega)
  unfold readRecord at stopped
  dsimp only at stopped
  rw [if_neg (not_not.mpr items)] at stopped
  split at stopped
  · cases stopped
  · split at stopped
    · cases stopped
    · split at stopped <;> cases stopped

theorem load_stacks_eq (entries : List StackEntry) (f : File) :
    loadStacks granted errno entries f =
      match readRecord granted errno entries.length f with
      | .stop => .ok entries
      | .fail e => .error e
      | .append e g => loadStacks granted errno (entries ++ [e]) g := by
  rw [loadStacks]
  split <;> rename_i read <;> rw [read]

/-- Complete records are loaded in order, with up to three further bytes unnoticed. -/
theorem load_stacks_encoded (plenty : ∀ n, granted n = true) (entries more : List StackEntry)
    {tail : List UInt8} (short : tail.length < 4) :
    loadStacks granted errno entries ⟨encode more ++ tail, false⟩ = .ok (entries ++ more) := by
  induction more generalizing entries with
  | nil =>
    rw [load_stacks_eq, encode, List.flatMap_nil, List.nil_append, record_stop short, List.append_nil]
  | cons e more ih =>
    have first : encode (e :: more) ++ tail = encodeEntry e ++ (encode more ++ tail) := by
      rw [encode, List.flatMap_cons, List.append_assoc]
      rfl
    rw [load_stacks_eq, first, record_encoded plenty]
    dsimp only
    rw [ih, List.append_assoc]
    rfl

/-- Whatever is loaded are complete records, with up to three bytes after them. -/
theorem load_stacks_split {entries loaded : List StackEntry}
    (accepted : loadStacks granted errno entries f = .ok loaded) :
    ∃ more tail, loaded = entries ++ more ∧ f.rest = encode more ++ tail ∧ tail.length < 4 := by
  induction entries, f using loadStacks.induct granted errno with
  | case1 entries f stopped =>
    rw [load_stacks_eq, stopped] at accepted
    cases accepted
    exact ⟨[], f.rest, (List.append_nil _).symm, rfl, record_stops_short stopped⟩
  | case2 entries f e failed =>
    rw [load_stacks_eq, failed] at accepted
    cases accepted
  | case3 entries f e g appended ih =>
    rw [load_stacks_eq, appended] at accepted
    obtain ⟨more, tail, same, rest, short⟩ := ih accepted
    refine ⟨e :: more, tail, ?_, ?_, short⟩
    · rw [same, List.append_assoc]
      rfl
    · rw [(record_split appended).1, rest, encode, encode, List.flatMap_cons, List.append_assoc]

theorem load_encoded (plenty : ∀ n, granted n = true) (entries : List StackEntry)
    {tail : List UInt8} (short : tail.length < 4) :
    load granted errno (encode entries ++ tail) = .ok entries :=
  load_stacks_encoded plenty [] entries short

theorem load_split {entries : List StackEntry} (accepted : load granted errno bytes = .ok entries) :
    ∃ tail, bytes = encode entries ++ tail ∧ tail.length < 4 := by
  obtain ⟨more, tail, same, rest, short⟩ := load_stacks_split accepted
  rw [List.nil_append] at same
  subst same
  exact ⟨tail, rest, short⟩

theorem lookup_first (entries : List StackEntry) (sid : UInt32) : lookupStack entries sid =
    match entries.find? (·.stackId = sid) with
    | none => ([], 0)
    | some e => (e.ips, e.frameCount) := by
  induction entries with
  | nil => rfl
  | cons e rest ih =>
    unfold lookupStack
    by_cases here : e.stackId = sid
    · simp [here]
    · simp [here, ih]

end

/-- The loop accepts complete records and nothing else, and the table is the records in order,
    of which the first with an id is found. -/
structure ParsesExactly (granted : Nat → Bool) (errno : List Char) (bytes : List UInt8) : Prop where
  accepts : (∃ table, load granted errno bytes = .ok table) ↔ ∃ records, bytes = encode records
  table : ∀ records, bytes = encode records → load granted errno bytes = .ok records ∧
    ∀ sid, lookupStack records sid =
      match records.find? (·.stackId = sid) with
      | none => ([], 0)
      | some e => (e.ips, e.frameCount)

/-- Complete records with one to three bytes of a further one. -/
def EndsInStackId (bytes : List UInt8) : Prop :=
  ∃ records tail, bytes = encode records ++ tail ∧ 0 < tail.length ∧ tail.length < 4

theorem encode_length (records : List StackEntry) : 8 ∣ (encode records).length := by
  unfold encode
  induction records with
  | nil => exact Nat.dvd_zero 8
  | cons e records ih =>
    have entry : (encodeEntry e).length = 8 + 8 * e.ips.length := by
      unfold encodeEntry
      rw [List.length_append, List.length_append, encode_ips_length, to_bytes_length, to_bytes_length]
      omega
    rw [List.flatMap_cons, List.length_append, entry]
    omega

section
variable {granted : Nat → Bool} {bytes : List UInt8} {table : List StackEntry} {tail : List UInt8}

theorem complete_loaded (plenty : ∀ n, granted n = true) (errno : List Char)
    (records : List StackEntry) : load granted errno (encode records) = .ok records := by
  have loaded : load granted errno (encode records ++ []) = .ok records :=
    load_encoded plenty records (by decide)
  rw [List.append_nil] at loaded
  exact loaded

/-- The records before the cut are loaded as if there were nothing after them. -/
theorem cut_accepted (plenty : ∀ n, granted n = true) (errno : List Char)
    (same : bytes = encode table ++ tail) (some_byte : 0 < tail.length) (short : tail.length < 4) :
    load granted errno bytes = .ok table ∧ ¬ ParsesExactly granted errno bytes := by
  have loaded : load granted errno bytes = .ok table := by
    rw [same]
    exact load_encoded plenty table short
  constructor
  · exact loaded
  · intro exactly
    obtain ⟨complete, whole⟩ := exactly.accepts.mp ⟨table, loaded⟩
    have words := encode_length complete
    have before := encode_length table
    rw [← whole, same, List.length_append] at words
    omega

/-- Every cut but one inside a stack_id is noticed. -/
theorem parses_exactly_iff (plenty : ∀ n, granted n = true) (errno : List Char)
    (bytes : List UInt8) : ParsesExactly granted errno bytes ↔ ¬ EndsInStackId bytes := by
  constructor
  · intro exactly cut
    obtain ⟨table, tail, same, some_byte, short⟩ := cut
    exact (cut_accepted plenty errno same some_byte short).2 exactly
  · intro uncut
    constructor
    · constructor
      · intro accepted
        obtain ⟨table, loaded⟩ := accepted
        obtain ⟨tail, same, short⟩ := load_split loaded
        rcases Nat.eq_zero_or_pos tail.length with none | some_byte
        · rw [List.length_eq_zero_iff.mp none, List.append_nil] at same
          exact ⟨table, same⟩
        · exact absurd ⟨table, tail, same, some_byte, short⟩ uncut
      · intro whole
        obtain ⟨records, same⟩ := whole
        rw [same]
        exact ⟨records, complete_loaded plenty errno records⟩
    · intro records same
      rw [same]
      exact ⟨complete_loaded plenty errno records, lookup_first records⟩

end

def emptyStack : StackEntry := ⟨7, 0, [], rfl⟩

/-- A stack without frames, and two bytes of the next. -/
def twoBytesMore : List UInt8 := [7, 0, 0, 0, 0, 0, 0, 0, 9, 0]

theorem two_bytes_unnoticed : load (fun _ => true) [] twoBytesMore = .ok [emptyStack] ∧
    ¬ ParsesExactly (fun _ => true) [] twoBytesMore := by
  have same : twoBytesMore = encode [emptyStack] ++ [9, 0] := by decide
  exact cut_accepted (fun _ => rfl) [] same (by decide) (by decide)

/-- A stack of one frame, whole. -/
def oneFrame : List UInt8 := [7, 0, 0, 0, 1, 0, 0, 0, 5, 0, 0, 0, 0, 0, 0, 0]

theorem one_frame_parsed : ParsesExactly (fun _ => true) [] oneFrame := by
  apply (parses_exactly_iff (fun _ => rfl) [] oneFrame).mpr
  intro cut
  obtain ⟨records, tail, same, some_byte, short⟩ := cut
  have words := encode_length records
  have length := congrArg List.length same
  have sixteen : oneFrame.length = 16 := rfl
  rw [sixteen, List.length_append] at length
  omega

end StackFile
