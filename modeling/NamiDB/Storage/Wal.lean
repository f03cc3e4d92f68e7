import NamiDB.Lib.Endian
import NamiDB.Lib.Fallible
import NamiDB.Storage.ObjectStore

/-! The bytes of a WAL segment. The checksum is any function of the bytes. -/
namespace NamiDB.Storage
open Lib List

/-- A record as the segment carries it, its payload not decoded. -/
structure RawRecord where
  lsn : UInt64
  payload : Bytes
  deriving DecidableEq

structure RawSegment where
  seq : Nat
  records : List RawRecord
  deriving DecidableEq

namespace RawSegment

def magicHeader : Bytes := [0x54,0x47,0x57,0x4c]
def magicFooter : Bytes := [0x54,0x47,0x45,0x4c]
def formatVersion : Nat := 2

def firstLsn (self : RawSegment) : UInt64 := (self.records.head?.map (·.lsn)).getD 0

def hex (n : Nat) : String := "0x"++String.ofList (Nat.toDigits 16 n)

/-- The lengths that the fields of the format can hold. -/
structure Fits (s : RawSegment) : Prop where
  count : s.records.length<2^32
  payloads : ∀ r∈s.records, r.payload.length<2^32

section
variable (crc32 : Bytes → UInt32)

def recordCrc (lsn : UInt64) (payload : Bytes) : Nat := (crc32 (leBytes 8 lsn.toNat++payload)).toNat

def frame (r : RawRecord) : Bytes :=
  leBytes 4 r.payload.length++(leBytes 4 (recordCrc crc32 r.lsn r.payload)++(leBytes 8 r.lsn.toNat++r.payload))

def frames (records : List RawRecord) : Bytes := records.flatMap (frame crc32)

def sealed (body : Bytes) : Bytes := body++(magicFooter++leBytes 4 (crc32 body).toNat)

def headed (version reserved firstLsn : Nat) (records : List RawRecord) : Bytes :=
  magicHeader++(leBytes 2 version++(leBytes 2 reserved++(leBytes 4 records.length++
    (leBytes 8 firstLsn++frames crc32 records))))

def encode (self : RawSegment) : Bytes :=
  sealed crc32 (headed crc32 formatVersion 0 self.firstLsn.toNat self.records)

variable (seq : Nat)

abbrev corrupted {α : Type} (detail : String) : Except Error α := .error (.corrupted (.walSegment seq) detail)

def decodeRecord (i : Nat) (cursor : Bytes) : Except Error (RawRecord × Bytes) :=
  if cursor.length<16 then corrupted seq s!"truncated record at index {i}"
  else
    let (length,cursor) := takeLe 4 cursor
    let (crc,cursor) := takeLe 4 cursor
    let (lsn,cursor) := takeLe 8 cursor
    let lsn := UInt64.ofNat lsn
    if cursor.length<length then
      corrupted seq s!"payload short by {length-cursor.length} bytes at record {i}"
    else
      let payload := cursor.take length
      let actual := recordCrc crc32 lsn payload
      if actual≠crc then
        corrupted seq s!"record {i} crc mismatch: declared {hex crc}, actual {hex actual}"
      else .ok (⟨lsn,payload⟩,cursor.drop length)

/-- The loop over the records from the `i`-th on, `n` of them to go. -/
def decodeRecords : Nat → Nat → Bytes → Except Error (List RawRecord × Bytes)
  | _,0,cursor => .ok ([],cursor)
  | i,n+1,cursor => do
    let (r,cursor) ← decodeRecord crc32 seq i cursor
    let (records,cursor) ← decodeRecords (i+1) n cursor
    pure (r::records,cursor)

def decodeBody (cursor : Bytes) : Except Error RawSegment :=
  if cursor.take 4≠magicHeader then corrupted seq "header magic mismatch"
  else
    let (version,cursor) := takeLe 2 (cursor.drop 4)
    if formatVersion<version then
      corrupted seq s!"WAL format version {version} is newer than supported {formatVersion}"
    else do
      let (_,cursor) := takeLe 2 cursor
      let (recordCount,cursor) := takeLe 4 cursor
      let (_,cursor) := takeLe 8 cursor
      let (records,cursor) ← decodeRecords crc32 seq 0 recordCount cursor
      if cursor≠[] then corrupted seq s!"{cursor.length} trailing bytes after records"
      else pure ⟨seq,records⟩

def decode (bytes : Bytes) : Except Error RawSegment :=
  if bytes.length<28 then corrupted seq s!"buffer too short ({bytes.length} bytes)"
  else
    let body := bytes.take (bytes.length-8)
    let footer := bytes.drop (bytes.length-8)
    if footer.take 4≠magicFooter then corrupted seq "footer magic mismatch"
    else
      let footerCrc := (takeLe 4 (footer.drop 4)).1
      let actualCrc := (crc32 body).toNat
      if footerCrc≠actualCrc then
        corrupted seq s!"footer crc mismatch: declared {hex footerCrc}, actual {hex actualCrc}"
      else decodeBody crc32 seq body

end

def recordFrames (bytes : Bytes) : Bytes := (bytes.take (bytes.length-8)).drop 20

section
variable {crc32 : Bytes → UInt32} {seq : Nat} {s : RawSegment} {records : List RawRecord} {r : RawRecord}
  {cursor rest : Bytes}

theorem decodeRecord_frame (h : r.payload.length<2^32) (i : Nat) (rest : Bytes) :
    decodeRecord crc32 seq i (frame crc32 r++rest)=.ok (r,rest) := by
  have hl : ¬(frame crc32 r++rest).length<16 := by
    simp only [frame,length_append,length_leBytes]
    omega
  have hp : r.payload.length<256^4 := h
  have hc : recordCrc crc32 r.lsn r.payload<256^4 := UInt32.toNat_lt _
  have hn : r.lsn.toNat<256^8 := UInt64.toNat_lt _
  rw [decodeRecord,if_neg hl]
  simp only [frame,append_assoc,takeLe_append hp,takeLe_append hc,takeLe_append hn]
  simp

theorem decodeRecord_ok (h : decodeRecord crc32 seq i cursor=.ok (r,rest)) :
    r.payload.length<2^32 ∧ cursor=frame crc32 r++rest := by
  rw [decodeRecord] at h
  split at h
  · cases h
  rcases h1 : takeLe 4 cursor with ⟨length,c1⟩
  rcases h2 : takeLe 4 c1 with ⟨crc,c2⟩
  rcases h3 : takeLe 8 c2 with ⟨lsn,c3⟩
  obtain ⟨hn,rfl⟩ := takeLe_eq (by omega) h1
  rw [length_append,length_leBytes] at *
  obtain ⟨-,rfl⟩ := takeLe_eq (by omega) h2
  rw [length_append,length_leBytes] at *
  obtain ⟨hlsn,rfl⟩ := takeLe_eq (by omega) h3
  simp only [h1,h2,h3] at h
  split_ifs at h with hp hc
  cases h
  have hlen : (c3.take length).length=length := length_take_of_le (by omega)
  have hl : (UInt64.ofNat lsn).toNat=lsn := by
    rw [UInt64.toNat_ofNat']
    omega
  refine ⟨hlen.trans_lt hn,?_⟩
  simp only [frame,hlen,hl,not_not.mp hc,append_assoc,take_append_drop]

theorem decodeRecords_frames (h : ∀ r∈records, r.payload.length<2^32) (i : Nat) (rest : Bytes) :
    decodeRecords crc32 seq i records.length (frames crc32 records++rest)=.ok (records,rest) := by
  induction records generalizing i with
  | nil => rfl
  | cons r records ih =>
    simp only [frames,flatMap_cons,append_assoc,length_cons,decodeRecords]
    rw [decodeRecord_frame (h r mem_cons_self)]
    change (decodeRecords crc32 seq (i+1) records.length (frames crc32 records++rest)).bind _=_
    rw [ih fun x hx => h x (.tail _ hx)]
    rfl

theorem decodeRecords_ok (h : decodeRecords crc32 seq i n cursor=.ok (records,rest)) :
    records.length=n ∧ (∀ r∈records, r.payload.length<2^32) ∧ cursor=frames crc32 records++rest := by
  induction n generalizing i cursor records with
  | zero =>
    cases h
    exact ⟨rfl,by simp,rfl⟩
  | succ n ih =>
    obtain ⟨⟨r,c⟩,hr,h⟩ := bind_eq_ok.mp h
    obtain ⟨⟨rs,c'⟩,hrs,⟨⟩⟩ := bind_eq_ok.mp h
    obtain ⟨hp,rfl⟩ := decodeRecord_ok hr
    obtain ⟨hl,hps,rfl⟩ := ih hrs
    exact ⟨by simp [hl],by simpa using ⟨hp,hps⟩,by simp [frames]⟩

theorem decodeBody_headed (h : s.Fits) :
    decodeBody crc32 s.seq (headed crc32 formatVersion 0 s.firstLsn.toNat s.records)=.ok s := by
  have hm (x : Bytes) : (magicHeader++x).take 4=magicHeader ∧ (magicHeader++x).drop 4=x := ⟨rfl,rfl⟩
  have hn : s.records.length<256^4 := h.count
  have hf : s.firstLsn.toNat<256^8 := UInt64.toNat_lt _
  have hr : decodeRecords crc32 s.seq 0 s.records.length (frames crc32 s.records++[])=_ :=
      decodeRecords_frames h.payloads 0 []
  rw [append_nil] at hr
  simp only [decodeBody,headed,hm,takeLe_append (w := 2) (n := formatVersion) (by decide),
    takeLe_append (w := 2) (n := 0) (by decide),takeLe_append hn,takeLe_append hf,hr]
  rfl

theorem decodeBody_ok (hl : 20≤cursor.length) (h : decodeBody crc32 seq cursor=.ok s) : s.Fits ∧
      ∃ version reserved firstLsn, cursor=headed crc32 version reserved firstLsn s.records := by
  rw [decodeBody] at h
  split_ifs at h with hm
  rw [← take_append_drop 4 cursor,not_not.mp hm] at hl ⊢
  rw [length_append,show magicHeader.length=4 from rfl] at hl
  rcases h1 : takeLe 2 (cursor.drop 4) with ⟨version,c1⟩
  rcases h2 : takeLe 2 c1 with ⟨reserved,c2⟩
  rcases h3 : takeLe 4 c2 with ⟨count,c3⟩
  rcases h4 : takeLe 8 c3 with ⟨firstLsn,c4⟩
  simp only [h1,h2,h3,h4] at h
  split_ifs at h
  obtain ⟨⟨records,c5⟩,hr,h⟩ := bind_eq_ok.mp h
  split_ifs at h with hc
  cases h
  obtain rfl : c5=[] := not_not.mp hc
  obtain ⟨rfl,hp,rfl⟩ := decodeRecords_ok hr
  obtain ⟨-,h1⟩ := takeLe_eq (by omega) h1
  rw [h1,length_append,length_leBytes] at hl
  obtain ⟨-,rfl⟩ := takeLe_eq (by omega) h2
  rw [length_append,length_leBytes] at hl
  obtain ⟨hn,rfl⟩ := takeLe_eq (by omega) h3
  rw [length_append,length_leBytes] at hl
  obtain ⟨-,rfl⟩ := takeLe_eq (by omega) h4
  exact ⟨⟨hn,hp⟩,version,reserved,firstLsn,by rw [h1,headed,append_nil]⟩

theorem decode_sealed (h : 20≤body.length) : decode crc32 seq (sealed crc32 body)=decodeBody crc32 seq body := by
  have hl : (sealed crc32 body).length=body.length+8 := by simp [sealed,magicFooter]
  have hc : (crc32 body).toNat<256^4 := UInt32.toNat_lt _
  have ht := takeLe_append hc []
  rw [append_nil] at ht
  rw [decode,hl,if_neg (by omega),Nat.add_sub_cancel]
  simp only [sealed,drop_left]
  rw [if_neg (by simp [magicFooter]),show (magicFooter++leBytes 4 (crc32 body).toNat).drop 4=leBytes 4 _ from rfl]
  simp [ht]

theorem decode_ok (h : decode crc32 seq bytes=.ok s) :
    ∃ body, 20≤body.length ∧ bytes=sealed crc32 body ∧ decodeBody crc32 seq body=.ok s := by
  simp only [decode] at h
  split_ifs at h with hl hm hc
  have hn : (bytes.take (bytes.length-8)).length=bytes.length-8 := length_take_of_le (by omega)
  have hf : ((bytes.drop (bytes.length-8)).drop 4).length=4 := by
    simp only [length_drop]
    omega
  obtain ⟨-,hcrc⟩ := takeLe_eq hf.ge (Prod.eta _).symm
  rw [not_not.mp hc,show (takeLe 4 _).2=[] from drop_eq_nil_of_le hf.le,append_nil] at hcrc
  refine ⟨_,by omega,?_,h⟩
  rw [sealed,← not_not.mp hm,← hcrc,take_append_drop,take_append_drop]

theorem length_headed (version reserved firstLsn : Nat) (records : List RawRecord) :
    (headed crc32 version reserved firstLsn records).length=20+(frames crc32 records).length := by
  simp only [headed,length_append,length_leBytes,show magicHeader.length=4 from rfl]
  omega

theorem decode_encode (h : s.Fits) : decode crc32 s.seq (encode crc32 s)=.ok s := by
  rw [encode,decode_sealed (by rw [length_headed]; omega),decodeBody_headed h]

theorem recordFrames_sealed (version reserved firstLsn : Nat) (records : List RawRecord) :
    recordFrames (sealed crc32 (headed crc32 version reserved firstLsn records))=frames crc32 records := by
  have hl (body : Bytes) : (sealed crc32 body).length-8=body.length := by simp [sealed,magicFooter]
  rw [recordFrames,hl,sealed,take_left,headed]
  simp only [← append_assoc]
  exact drop_left' (by simp [magicHeader])

/-- The header of what is accepted has the count of the whole segment, so the loop has read all its records, and
no byte of the footer is missing. -/
theorem eq_encode_of_isPrefix (h : s.Fits) (hp : p<+:encode crc32 s) (hd : decode crc32 seq p=.ok s') :
    p=encode crc32 s := by
  obtain ⟨t,ht⟩ := hp
  obtain ⟨body,hl,rfl,hb⟩ := decode_ok hd
  obtain ⟨hfit,version,reserved,firstLsn,rfl⟩ := decodeBody_ok hl hb
  have hbytes := ht
  simp only [encode,sealed,headed,append_assoc] at hbytes
  have hfields := append_inj_right (append_inj_right (append_inj_right hbytes rfl) (by simp)) (by simp)
  have hcount := congrArg leValue (append_inj_left hfields (by simp))
  rw [leValue_leBytes hfit.count,leValue_leBytes h.count] at hcount
  have hframes := append_inj_right (append_inj_right hfields (by simp)) (by simp)
  have hread := congrArg (decodeRecords crc32 seq 0 s.records.length) hframes
  rw [decodeRecords_frames h.payloads,← hcount,decodeRecords_frames hfit.payloads] at hread
  have ht0 := congrArg length (Prod.mk.inj (Except.ok.inj hread)).2
  simp_all

end

/-- Decoding gives back what was encoded, what is accepted is a header, the frames of the records and a footer,
and no segment that was cut off is accepted. -/
theorem wal_segment_codec (crc32 : Bytes → UInt32) :
    (∀ s : RawSegment, s.Fits → decode crc32 s.seq (encode crc32 s) = .ok s) ∧
    (∀ seq bytes s, decode crc32 seq bytes = .ok s →
      recordFrames bytes = frames crc32 s.records ∧ recordFrames (encode crc32 s) = recordFrames bytes) ∧
    ∀ seq s p, s.Fits → p <+: encode crc32 s → p ≠ encode crc32 s → ∃ e, decode crc32 seq p = .error e := by
  refine ⟨fun s => decode_encode,fun seq bytes s hd => ?_,fun seq s p h hp hne => ?_⟩
  · obtain ⟨body,hl,rfl,hb⟩ := decode_ok hd
    obtain ⟨-,version,reserved,firstLsn,rfl⟩ := decodeBody_ok hl hb
    simp [encode,recordFrames_sealed]
  · cases hd : decode crc32 seq p with
    | error e => exact ⟨e,rfl⟩
    | ok s' => exact absurd (eq_encode_of_isPrefix h hp hd) hne

theorem wal_segment_codec_two : decode (fun b => .ofNat b.length) 3 (encode (fun b => .ofNat b.length)
      ⟨3,[⟨7,[1,2]⟩,⟨8,[]⟩]⟩) = .ok ⟨3,[⟨7,[1,2]⟩,⟨8,[]⟩]⟩ ∧
    recordFrames (encode (fun b => .ofNat b.length) ⟨3,[⟨7,[1,2]⟩,⟨8,[]⟩]⟩) ≠ [] ∧
    ∃ e, decode (fun b => .ofNat b.length) 3 ((encode (fun b => .ofNat b.length)
      ⟨3,[⟨7,[1,2]⟩,⟨8,[]⟩]⟩).take 40) = .error e :=
  have h : Fits ⟨3,[⟨7,[1,2]⟩,⟨8,[]⟩]⟩ := ⟨by decide,by decide⟩
  have codec := wal_segment_codec fun b => .ofNat b.length
  ⟨codec.1 _ h,(codec.2.1 3 _ _ (codec.1 _ h)).1 ▸ by decide,codec.2.2 3 _ _ h ( take_prefix _ _) (by decide)⟩

end RawSegment
end NamiDB.Storage
