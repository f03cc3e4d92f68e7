import NamiDB.Lib.Delimited
import NamiDB.Query.Value

/-! When two values count as equal: for `=`, for the derived comparison, and for the texts that groups,
joins and DISTINCT are keyed by. -/
namespace NamiDB.Cypher
open Query Storage Lib List

def i64AsF64 (n : Int) : BitVec 64 :=
  let sign := if n<0 then 1 else 0
  let log := n.natAbs.log2
  let magnitude :=
    if n=0 then 0
    else (log+1022)*2^52+(if log≤52 then n.natAbs*2^(52-log) else roundShift n.natAbs (log-52))
  BitVec.ofNat 64 (sign*2^63+magnitude)

example : i64AsF64 1=0x3ff0000000000000 ∧ i64AsF64 (-9007199254740993)=0xc340000000000000 := by decide

def labelsEq (a b : List String) : Bool := a.all b.contains&&b.all a.contains

def propertiesEq (a b : Properties) : Bool :=
  a.entries.length==b.entries.length&&a.entries.all fun e => match b.lookup e.1 with
    | some v => e.2.eq v
    | none => false

mutual
/-- The derived `PartialEq`. -/
def valueEq : RuntimeValue → RuntimeValue → Bool
  | .null, .null => true
  | .bool a, .bool b => a==b
  | .integer a, .integer b => a==b
  | .float a, .float b => floatEq 52 a b
  | .string a, .string b => a==b
  | .list a, .list b => valuesEq a b
  | .map a, .map b => entriesEq a b
  | .node a, .node b => a.id==b.id&&labelsEq a.labels b.labels&&propertiesEq a.properties b.properties
  | .rel a, .rel b => a.edgeType==b.edgeType&&a.src==b.src&&a.dst==b.dst &&
      propertiesEq a.properties b.properties
  | .date a, .date b => a==b
  | .dateTime a, .dateTime b => a==b
  | .bytes a, .bytes b => a==b
  | .vector a, .vector b => floatsEq a b
  | .vector8 a s, .vector8 b t => a==b&&floatEq 23 s t
  | .path a, .path b => valuesEq a b
  | _, _ => false

def valuesEq : List RuntimeValue → List RuntimeValue → Bool
  | [], [] => true
  | a::as, b::bs => valueEq a b&&valuesEq as bs
  | _, _ => false

def entriesEq : List (String × RuntimeValue) → List (String × RuntimeValue) → Bool
  | [], [] => true
  | (k,a)::as, (l,b)::bs => k==l&&valueEq a b&&entriesEq as bs
  | _, _ => false
end

/-- `=` on values that are not NULL. -/
def isEqual : RuntimeValue → RuntimeValue → Bool
  | .integer a, .integer b => a==b
  | .float a, .float b => floatEq 52 a b
  | .integer n, .float f => floatEq 52 (i64AsF64 n) f
  | .float f, .integer n => floatEq 52 (i64AsF64 n) f
  | .bool a, .bool b => a==b
  | .string a, .string b => a==b
  | .bytes a, .bytes b => a==b
  | .list a, .list b => valuesEq a b
  | .map a, .map b => entriesEq a b
  | .node a, .node b => a.id==b.id
  | .rel a, .rel b => a.edgeType==b.edgeType&&a.src==b.src&&a.dst==b.dst
  | .date a, .date b => a==b
  | .dateTime a, .dateTime b => a==b
  | _, _ => false

theorem propertiesEq_symm (h : propertiesEq a b=true) : propertiesEq b a=true := by
  simp only [propertiesEq,Bool.and_eq_true,beq_iff_eq,all_eq_true] at h ⊢
  obtain ⟨hlen,hall⟩ := h
  have hkeys : a.keys ⊆ b.keys := by
    intro k hk
    obtain ⟨v,hv⟩ := Option.isSome_iff_exists.mp (AList.lookup_isSome.mpr (AList.mem_keys.mp hk))
    have := hall ⟨k,v⟩ (AList.mem_lookup_iff.mp hv)
    cases hb : b.lookup k with
    | none => simp [hb] at this
    | some w => exact AList.mem_keys.mpr (AList.lookup_isSome.mp (by simp [hb]))
  have hperm : a.keys.Perm b.keys :=
    (subperm_of_subset a.keys_nodup hkeys).perm_of_length_le (by simp [AList.keys,keys,hlen])
  refine ⟨hlen.symm,fun e he => ?_⟩
  obtain ⟨k,w⟩ := e
  have hb : b.lookup k=some w := AList.mem_lookup_iff.mpr he
  have hk : k∈a.keys := hperm.mem_iff.mpr (AList.mem_keys.mpr (AList.lookup_isSome.mp (by simp [hb])))
  obtain ⟨v,hv⟩ := Option.isSome_iff_exists.mp (AList.lookup_isSome.mpr (AList.mem_keys.mp hk))
  have := hall ⟨k,v⟩ (AList.mem_lookup_iff.mp hv)
  rw [hb] at this
  rw [hv]
  show w.eq v=true
  rw [Value.eq_comm]
  exact this

theorem propertiesEq_comm (a b : Properties) : propertiesEq a b=propertiesEq b a :=
  Bool.eq_iff_iff.mpr ⟨propertiesEq_symm,propertiesEq_symm⟩

theorem labelsEq_comm (a b : List String) : labelsEq a b=labelsEq b a := Bool.and_comm _ _

mutual
theorem valueEq_comm (a b : RuntimeValue) : valueEq a b=valueEq b a := by
  cases a <;> cases b <;> simp only [valueEq]
  case float.float => exact floatEq_comm 52 _ _
  case list.list a b | path.path a b => exact valuesEq_comm a b
  case map.map a b => exact entriesEq_comm a b
  case node.node a b => rw [labelsEq_comm,propertiesEq_comm,BEq.comm]
  case rel.rel a b =>
    rw [propertiesEq_comm,BEq.comm (a := a.edgeType),BEq.comm (a := a.src),BEq.comm (a := a.dst)]
  case vector.vector => exact floatsEq_comm _ _
  case vector8.vector8 a s b t => rw [floatEq_comm 23 s t,BEq.comm]
  all_goals exact BEq.comm

theorem valuesEq_comm (a b : List RuntimeValue) : valuesEq a b=valuesEq b a := by
  match a, b with
  | [], [] | [], _ :: _ | _ :: _, [] => rfl
  | x::a, y::b => simp only [valuesEq,valueEq_comm x y,valuesEq_comm a b]

theorem entriesEq_comm (a b : List (String × RuntimeValue)) : entriesEq a b=entriesEq b a := by
  match a, b with
  | [], [] | [], _ :: _ | _ :: _, [] => rfl
  | (k,x)::a, (l,y)::b =>
    simp only [entriesEq,valueEq_comm x y,entriesEq_comm a b,BEq.comm (a := k) (b := l)]
end

theorem isEqual_comm (a b : RuntimeValue) : isEqual a b=isEqual b a := by
  cases a <;> cases b <;> simp only [isEqual]
  case float.float => exact floatEq_comm 52 _ _
  case list.list a b => exact valuesEq_comm a b
  case map.map a b => exact entriesEq_comm a b
  case rel.rel a b => rw [BEq.comm (a := a.edgeType),BEq.comm (a := a.src),BEq.comm (a := a.dst)]
  all_goals exact BEq.comm

section

/-- The text of an id. It says nothing that could end it. -/
structure IdText where
  text : NodeId → List Char
  injective : ∀ a b, text a=text b → a=b
  plain : ∀ id, ';' ∉ text id ∧ '>' ∉ text id

def byteLength (s : String) : Nat := (s.toList.map Char.utf8Size).sum

def sized (n : Nat) (rest : List Char) : List Char := Nat.toDigits 10 n ++ ':' :: rest

def codeByte (c : Int) : Nat := (c%256).toNat

variable (ids : IdText)

mutual
def fingerprint : RuntimeValue → List Char
  | .null => ['Z', ';']
  | .bool b => ['B',if b then '1' else '0']
  | .integer n => 'I' :: (intText n++[';'])
  | .float f => 'F' :: (hexText 16 (if isZero f then 0 else f.toNat)++[';'])
  | .string s => 'S' :: sized (byteLength s) s.toList
  | .bytes b => 'Y' :: sized b.length ((b.map UInt8.toNat).flatMap (hexText 2))
  | .vector xs => 'V' :: sized xs.length ((xs.map BitVec.toNat).flatMap (hexText 8))
  | .vector8 codes scale =>
    'W' :: (hexText 8 scale.toNat ++ ':' :: sized codes.length ((codes.map codeByte).flatMap (hexText 2)))
  | .list xs => 'L' :: sized xs.length (fingerprints xs)
  | .map entries => 'M' :: sized entries.length (fingerprintEntries entries)
  | .node n => 'N' :: (ids.text n.id++[';'])
  | .rel r => 'R' :: sized (byteLength r.edgeType)
      (r.edgeType.toList++(ids.text r.src ++ '>' :: (ids.text r.dst++[';'])))
  | .date d => 'D' :: (intText d++[';'])
  | .dateTime d => 'T' :: (intText d++[';'])
  | .path xs => 'P' :: sized xs.length (fingerprints xs)

def fingerprints : List RuntimeValue → List Char
  | [] => []
  | x::xs => fingerprint x++fingerprints xs

def fingerprintEntries : List (String × RuntimeValue) → List Char
  | [] => []
  | (k,x)::xs => Nat.toDigits 10 (byteLength k) ++ '=' :: (k.toList++(fingerprint x++fingerprintEntries xs))
end

mutual
/-- What two values have in common when their fingerprints are the same. -/
def sameKey : RuntimeValue → RuntimeValue → Bool
  | .null, .null => true
  | .bool a, .bool b => a==b
  | .integer a, .integer b => a==b
  | .float a, .float b => decide (a=b)||isZero a&&isZero b
  | .string a, .string b => a==b
  | .list a, .list b => sameKeys a b
  | .map a, .map b => sameEntries a b
  | .node a, .node b => a.id==b.id
  | .rel a, .rel b => a.edgeType==b.edgeType&&a.src==b.src&&a.dst==b.dst
  | .date a, .date b => a==b
  | .dateTime a, .dateTime b => a==b
  | .bytes a, .bytes b => a==b
  | .vector a, .vector b => decide (a=b)
  | .vector8 a s, .vector8 b t => decide (a.map codeByte=b.map codeByte)&&decide (s=t)
  | .path a, .path b => sameKeys a b
  | _, _ => false

def sameKeys : List RuntimeValue → List RuntimeValue → Bool
  | [], [] => true
  | a::as, b::bs => sameKey a b&&sameKeys as bs
  | _, _ => false

def sameEntries : List (String × RuntimeValue) → List (String × RuntimeValue) → Bool
  | [], [] => true
  | (k,a)::as, (l,b)::bs => k==l&&sameKey a b&&sameEntries as bs
  | _, _ => false
end

def tag : RuntimeValue → Char
  | .null => 'Z'
  | .bool _ => 'B'
  | .integer _ => 'I'
  | .float _ => 'F'
  | .string _ => 'S'
  | .bytes _ => 'Y'
  | .vector _ => 'V'
  | .vector8 _ _ => 'W'
  | .list _ => 'L'
  | .map _ => 'M'
  | .node _ => 'N'
  | .rel _ => 'R'
  | .date _ => 'D'
  | .dateTime _ => 'T'
  | .path _ => 'P'

variable {ids} {r : List Char} {v : RuntimeValue} {a b : BitVec 64}

theorem head_fingerprint (v : RuntimeValue) : (fingerprint ids v).head?=some (tag v) := by
  cases v <;> simp [fingerprint,tag]

theorem tag_eq (h : fingerprint ids v++r=fingerprint ids w++r') : tag v=tag w := by
  have hhead := congrArg head? h
  simpa [head_fingerprint] using hhead

theorem split_sized (h : sized m r=sized n r') : m=n ∧ r=r' := split_digits rfl h

theorem split_string (hlen : byteLength s=byteLength s') (h : s.toList++r=s'.toList++r') : s=s' ∧ r=r' := by
  obtain ⟨hs,hr⟩ := split_at_size Char.utf8Size_pos hlen h
  exact ⟨String.toList_injective hs,hr⟩

theorem split_id {a b : NodeId} (hc : c = ';' ∨ c = '>') (h : ids.text a++c::r=ids.text b++c::r') : a=b ∧ r=r' := by
  have hplain : ∀ id, c∉ids.text id := by
    intro id
    rcases hc with rfl | rfl
    · exact (ids.plain id).1
    · exact (ids.plain id).2
  obtain ⟨hs,hr⟩ := split_at_stop (hplain a) (hplain b) h
  exact ⟨ids.injective a b hs,hr⟩

theorem sized_append (n : Nat) (rest r : List Char) : sized n rest++r=sized n (rest++r) := by
  simp [sized]

theorem zero_key_eq :
    (decide (a=b)||isZero a&&isZero b)=true ↔ (if isZero a then 0 else a)=if isZero b then 0 else b := by
  simp only [Bool.or_eq_true,decide_eq_true_eq,Bool.and_eq_true]
  by_cases ha : isZero a=true <;> by_cases hb : isZero b=true
  · simp [ha,hb]
  · rw [if_pos ha,if_neg hb]
    refine iff_of_false ?_ fun h => hb (h ▸ by decide)
    rintro (rfl | h)
    · exact hb ha
    · exact hb h.2
  · rw [if_neg ha,if_pos hb]
    refine iff_of_false ?_ fun h => ha (h ▸ by decide)
    rintro (rfl | h)
    · exact ha hb
    · exact ha h.1
  · simp [ha,hb]

theorem float_key_eq (h : (if isZero a then 0 else a.toNat)=if isZero b then 0 else b.toNat) :
    (decide (a=b)||isZero a&&isZero b)=true :=
  zero_key_eq.mpr (BitVec.eq_of_toNat_eq (by simpa [apply_ite] using h))

theorem float_key_lt (a : BitVec 64) : (if isZero a then 0 else a.toNat)<16^16 := by
  split
  · decide
  · exact a.isLt

mutual
theorem fingerprint_split (v w : RuntimeValue) (r r' : List Char)
    (h : fingerprint ids v++r=fingerprint ids w++r') : sameKey v w=true ∧ r=r' := by
  have htag := tag_eq h
  cases v <;> cases w <;> first
    | (simp [tag] at htag; done)
    | simp only [fingerprint,cons_append,cons.injEq,true_and,append_assoc,nil_append,sized_append] at h
  case null.null => exact ⟨rfl,h⟩
  case bool.bool a b =>
    obtain ⟨hb,hr⟩ := h
    cases a <;> cases b <;> simp_all [sameKey]
  case integer.integer a b | date.date a b | dateTime.dateTime a b =>
    obtain ⟨rfl,hr⟩ := split_intText rfl (by decide) h
    exact ⟨by simp [sameKey],hr⟩
  case float.float a b =>
    obtain ⟨hbits,hr⟩ := split_hexText (float_key_lt a) (float_key_lt b) h
    exact ⟨float_key_eq hbits,by simpa using hr⟩
  case string.string a b =>
    obtain ⟨hlen,hs⟩ := split_sized h
    obtain ⟨rfl,hr⟩ := split_string hlen hs
    exact ⟨by simp [sameKey],hr⟩
  case list.list a b | path.path a b =>
    obtain ⟨hlen,hs⟩ := split_sized h
    exact fingerprints_split a b r r' hlen hs
  case map.map a b =>
    obtain ⟨hlen,hs⟩ := split_sized h
    exact fingerprintEntries_split a b r r' hlen hs
  case node.node a b =>
    obtain ⟨hid,hr⟩ := split_id (.inl rfl) h
    exact ⟨by simp [sameKey,hid],hr⟩
  case rel.rel a b =>
    obtain ⟨hlen,hs⟩ := split_sized h
    obtain ⟨htype,hs⟩ := split_string hlen hs
    obtain ⟨hsrc,hs⟩ := split_id (.inr rfl) hs
    obtain ⟨hdst,hr⟩ := split_id (.inl rfl) hs
    exact ⟨by simp [sameKey,htype,hsrc,hdst],hr⟩
  case bytes.bytes a b =>
    obtain ⟨hlen,hs⟩ := split_sized h
    obtain ⟨hb,hr⟩ := split_hexTexts (by simpa using fun x _ => x.toNat_lt)
      (by simpa using fun x _ => x.toNat_lt) (by simpa using hlen) hs
    have hab : a=b := map_injective_iff.mpr (fun x y => UInt8.toNat_inj.mp) hb
    exact ⟨by simp [sameKey,hab],hr⟩
  case vector.vector a b =>
    obtain ⟨hlen,hs⟩ := split_sized h
    obtain ⟨hb,hr⟩ := split_hexTexts (by simpa using fun x _ => x.isLt) (by simpa using fun x _ => x.isLt)
      (by simpa using hlen) hs
    have hab : a=b := map_injective_iff.mpr (fun x y => BitVec.eq_of_toNat_eq) hb
    exact ⟨by simp [sameKey,hab],hr⟩
  case vector8.vector8 a s b t =>
    obtain ⟨hscale,hs⟩ := split_hexText s.isLt t.isLt h
    obtain ⟨hlen,hs⟩ := split_sized (by simpa using hs)
    have hbyte : ∀ c : Int, codeByte c<16^2 := fun c => by simp only [codeByte]; omega
    obtain ⟨hb,hr⟩ := split_hexTexts (by simpa using fun x _ => hbyte x)
      (by simpa using fun x _ => hbyte x) (by simpa using hlen) hs
    exact ⟨by simp [sameKey,hb,BitVec.eq_of_toNat_eq hscale],hr⟩

theorem fingerprints_split (xs ys : List RuntimeValue) (r r' : List Char) (hlen : xs.length=ys.length)
    (h : fingerprints ids xs++r=fingerprints ids ys++r') : sameKeys xs ys=true ∧ r=r' := by
  match xs, ys with
  | [], [] => exact ⟨rfl,by simpa [fingerprints] using h⟩
  | x::xs, y::ys =>
    simp only [fingerprints,append_assoc] at h
    obtain ⟨hx,hs⟩ := fingerprint_split x y _ _ h
    obtain ⟨hxs,hr⟩ := fingerprints_split xs ys r r' (by simpa using hlen) hs
    exact ⟨by simp [sameKeys,hx,hxs],hr⟩

theorem fingerprintEntries_split (xs ys : List (String × RuntimeValue)) (r r' : List Char)
    (hlen : xs.length=ys.length) (h : fingerprintEntries ids xs++r=fingerprintEntries ids ys++r') :
    sameEntries xs ys=true ∧ r=r' := by
  match xs, ys with
  | [], [] => exact ⟨rfl,by simpa [fingerprintEntries] using h⟩
  | (k,x)::xs, (l,y)::ys =>
    simp only [fingerprintEntries,append_assoc,cons_append] at h
    obtain ⟨hsize,hs⟩ := split_digits rfl h
    obtain ⟨hk,hs⟩ := split_string hsize hs
    obtain ⟨hx,hs⟩ := fingerprint_split x y _ _ hs
    obtain ⟨hxs,hr⟩ := fingerprintEntries_split xs ys r r' (by simpa using hlen) hs
    exact ⟨by simp [sameEntries,hk,hx,hxs],hr⟩
end

mutual
/-- What is left of a value when a node or relationship is only who it is. A float has no sign at zero, and
a code of a vector is a byte. -/
def identity : RuntimeValue → RuntimeValue
  | .float f => .float (if isZero f then 0 else f)
  | .list xs => .list (identities xs)
  | .map entries => .map (identityEntries entries)
  | .node n => .node ⟨n.id,[],∅⟩
  | .rel r => .rel ⟨r.edgeType,r.src,r.dst,∅⟩
  | .vector8 codes scale => .vector8 (codes.map fun c => (codeByte c : Int)) scale
  | .path xs => .path (identities xs)
  | v => v

def identities : List RuntimeValue → List RuntimeValue
  | [] => []
  | x::xs => identity x::identities xs

def identityEntries : List (String × RuntimeValue) → List (String × RuntimeValue)
  | [] => []
  | (k,x)::xs => (k,identity x)::identityEntries xs
end

mutual
theorem sameKey_iff_identity (v w : RuntimeValue) : sameKey v w=true ↔ identity v=identity w := by
  cases v <;> cases w <;> first | (simp [sameKey,identity]; done) | simp [sameKey,identity]
  case float.float => simpa using zero_key_eq
  case list.list a b | path.path a b => simpa using sameKeys_iff_identities a b
  case map.map a b => simpa using sameEntries_iff_identities a b
  case rel.rel a b => simp [and_assoc]
  case vector8.vector8 a s b t =>
    have hcodes : a.map codeByte=b.map codeByte ↔
        (a.map fun c => (codeByte c : Int))=b.map fun c => (codeByte c : Int) := by
      have := (map_injective_iff.mpr Int.ofNat_injective).eq_iff (a := a.map codeByte) (b := b.map codeByte)
      simpa [Function.comp_def] using this.symm
    simp [hcodes]

theorem sameKeys_iff_identities (xs ys : List RuntimeValue) : sameKeys xs ys=true ↔ identities xs=identities ys := by
  match xs, ys with
  | [], [] | [], _ :: _ | _ :: _, [] => simp [sameKeys,identities]
  | x::xs, y::ys => simp [sameKeys,identities,sameKey_iff_identity x y,sameKeys_iff_identities xs ys]

theorem sameEntries_iff_identities (xs ys : List (String × RuntimeValue)) :
    sameEntries xs ys=true ↔ identityEntries xs=identityEntries ys := by
  match xs, ys with
  | [], [] | [], _ :: _ | _ :: _, [] => simp [sameEntries,identityEntries]
  | (k,x)::xs, (l,y)::ys =>
    simp [sameEntries,identityEntries,sameKey_iff_identity x y,sameEntries_iff_identities xs ys]
end

mutual
theorem fingerprint_identity (v : RuntimeValue) : fingerprint ids (identity v)=fingerprint ids v := by
  cases v with
  | float f =>
    by_cases hf : isZero f=true
    · simp [identity,fingerprint,hf]
    · simp [identity,fingerprint,hf]
  | list xs | path xs => simp [identity,fingerprint,fingerprints_identities xs]
  | map entries => simp [identity,fingerprint,fingerprintEntries_identities entries]
  | vector8 codes scale =>
    have hbyte : codeByte∘(fun c => (codeByte c : Int))=codeByte := funext fun c => by
      simp only [codeByte,Function.comp]
      omega
    simp [identity,fingerprint,hbyte]
  | _ => rfl

theorem fingerprints_identities (xs : List RuntimeValue) :
    (identities xs).length=xs.length ∧ fingerprints ids (identities xs)=fingerprints ids xs := by
  match xs with
  | [] => exact ⟨rfl,rfl⟩
  | x::xs => simp [identities,fingerprints,fingerprint_identity x,fingerprints_identities xs]

theorem fingerprintEntries_identities (xs : List (String × RuntimeValue)) : (identityEntries xs).length=xs.length ∧
    fingerprintEntries ids (identityEntries xs)=fingerprintEntries ids xs := by
  match xs with
  | [] => exact ⟨rfl,rfl⟩
  | (k,x)::xs =>
    simp [identityEntries,fingerprintEntries,fingerprint_identity x,fingerprintEntries_identities xs]
end

theorem fingerprint_congr (v w : RuntimeValue) (h : sameKey v w=true) : fingerprint ids v=fingerprint ids w := by
  rw [← fingerprint_identity v,(sameKey_iff_identity v w).mp h,fingerprint_identity w]

theorem fingerprint_eq_iff : fingerprint ids v=fingerprint ids w ↔ sameKey v w=true := by
  constructor
  · intro h
    exact (fingerprint_split v w [] [] (by rw [h])).1
  · exact fingerprint_congr v w

end
end NamiDB.Cypher
