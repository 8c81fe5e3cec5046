import CloudDisk.HandlerEffects

/-! # Calls that run one at a time

The state between calls is the shared state only: no handler keeps anything of its own.
An upload has put its object into the storage before its handler starts. -/
namespace DiskCalls

open ByteStrings CommandPrograms RowTables DiskState HandlerRules HandlerEffects

inductive Call where
  | upload (now user md5 filename : CString) (size : ℤ) (fileid url : CString)
  | dealMd5 (now user md5 filename : CString)
  | saveFile (now user md5 filename : CString)
  | shareFile (now user md5 filename : CString)
  | cancelShareFile (user md5 filename : CString)
  | delFile (user md5 filename : CString)

def Call.handler : Call → Handler ℤ
  | .upload now user md5 filename size fileid url =>
    DiskHandlers.storeFileinfoToMysql now user filename md5 size fileid url
  | .dealMd5 now user md5 filename => DiskHandlers.dealMd5 now user md5 filename
  | .saveFile now user md5 filename => DiskHandlers.saveFile now user md5 filename
  | .shareFile now user md5 filename => DiskHandlers.shareFile now user md5 filename
  | .cancelShareFile user md5 filename => DiskHandlers.cancelShareFile user md5 filename
  | .delFile user md5 filename => DiskHandlers.delFile user md5 filename

def Call.arrive : Call → Disk → Disk
  | .upload _ _ _ _ _ fileid _, d => { d with storage := insert fileid d.storage }
  | _, d => d

def Call.Effect : Call → Disk → ℤ → Disk → Prop
  | .upload now user md5 filename size fileid url =>
    StoreFile now user md5 filename size fileid url
  | .dealMd5 now user md5 filename => DealMd5 now user md5 filename
  | .saveFile now user md5 filename => SaveFile now user md5 filename
  | .shareFile now user md5 filename => ShareFile now user md5 filename
  | .cancelShareFile user md5 filename => CancelShareFile user md5 filename
  | .delFile user md5 filename => DelFile user md5 filename

theorem Call.handler_effect (c : Call) (d : Disk) :
    Spec Cmd.exec NoFail c.handler d (c.Effect d) := by
  cases c with
  | upload now user md5 filename size fileid url =>
    exact storeFileinfoToMysql_effect now user md5 filename size fileid url d
  | dealMd5 now user md5 filename => exact dealMd5_effect now user md5 filename d
  | saveFile now user md5 filename => exact saveFile_effect now user md5 filename d
  | shareFile now user md5 filename => exact shareFile_effect now user md5 filename d
  | cancelShareFile user md5 filename => exact cancelShareFile_effect user md5 filename d
  | delFile user md5 filename => exact delFile_effect user md5 filename d

structure TablesEmpty (d : Disk) : Prop where
  fileInfo : d.fileInfo = 0
  userFileList : d.userFileList = 0
  shareFileList : d.shareFileList = 0
  userFileCount : d.userFileCount = 0

/-- The states after finitely many calls from empty tables, each call allowed in the
state it starts from and answered by admissible outcomes. -/
inductive Reachable (adm : Outcome → Prop) (Allowed : Disk → Call → Prop) : Disk → Prop where
  | start (d : Disk) (h : TablesEmpty d) : Reachable adm Allowed d
  | call (d : Disk) (c : Call) (e : ℕ → Outcome) (hd : Reachable adm Allowed d)
      (hc : Allowed d c) (he : ∀ i, adm (e i)) :
      Reachable adm Allowed (c.handler.run Cmd.exec e (c.arrive d)).2

section
variable {adm : Outcome → Prop} {Allowed : Disk → Call → Prop} {Inv : Disk → Prop}

theorem reachable_invariant (hstart : ∀ d, TablesEmpty d → Inv d)
    (hcall : ∀ d c, Inv d → Allowed d c →
      Spec Cmd.exec adm c.handler (c.arrive d) fun _ d' => Inv d') {d : Disk}
    (h : Reachable adm Allowed d) : Inv d := by
  induction h with
  | start d h => exact hstart d h
  | call d c e hd hc he ih => exact hcall d c ih hc e he

theorem reachable_effects (hstart : ∀ d, TablesEmpty d → Inv d)
    (hcall : ∀ d c, Inv d → Allowed d c → ∀ n d', c.Effect (c.arrive d) n d' → Inv d')
    {d : Disk} (h : Reachable NoFail Allowed d) : Inv d := by
  refine reachable_invariant hstart (fun d c hd hc => ?_) h
  exact (c.handler_effect (c.arrive d)).mono (hcall d c hd hc)

end

end DiskCalls
