import FastSafeIO.EventFile

/-! The events of a file can be read back from what reader.c prints, whatever addr2line prints
between them. -/
namespace EventReport
open ByteWords TextTables StackFile EventFile

section
variable (o : Outside)

end

section
variable (o : Outside) (table : List StackEntry) (vmlinuxPath qemuPath : List Char)

end

end EventReport
