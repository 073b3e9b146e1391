import FuzzerTestSuite.Library.Client
import FuzzerTestSuite.Png.Campaign

/-! The libpng target: `LLVMFuzzerTestOneInput` of `target.cc`.

libpng is outside the repository: `Libpng` is whatever is linked. Its functions that may read are
clients of `user_read_data`, which is the server of the input after the signature; an error of
libpng's own, or a read it is refused, jumps back to the target and ends it. The target is a client
too: besides reading it makes objects, and sets the pointers of `ScopedPngObject` to them.
`target_contract` says what libpng gets to see: the input from the ninth byte on, in order and each
byte at most once, as libpng's own calls ask for it (`Libpng.decode`); that the bytes behind the
last one it gets make no difference; that a large image is left as soon as its header is known; and
that every exit releases exactly the objects that were made. What the entry points of the mutator
write always gets as far as libpng (`entry_reaches`). -/
namespace FuzzerTestSuite.Png
open Library Library.Bytes

/-! ### Reading -/

/-- `bytes_left` is the length of `data`. -/
structure BufState where
  data : V

/-- `user_read_data`: `none` is `png_error`, which does not return. -/
def userReadData (buf_state : BufState) (length : Nat) : Option (V × BufState) :=
  if buf_state.data.length < length then none
  else some (buf_state.data.take length, ⟨buf_state.data.drop length⟩)

/-- A function of libpng that may read. `none` is an error of its own. -/
abbrev LibpngCall (ρ : Type) : Type := Client Nat V (Option ρ)

/-- What the target uses of libpng. `S` is what its structs hold, `bits` the width of `png_uint_32`. -/
structure Libpng (S : Type) where
  bits : Nat
  png_sig_cmp : V → Int
  /-- `none` is a null pointer, here and in the next. -/
  png_create_read_struct : Option S
  png_create_info_struct : S → Option S
  flags : S → UInt32
  set_flags : S → UInt32 → S
  crc_critical_mask : UInt32
  crc_critical_ignore : UInt32
  crc_ancillary_mask : UInt32
  crc_ancillary_nowarn : UInt32
  png_set_sig_bytes : S → Nat → S
  png_read_info : S → LibpngCall S
  /-- Width and height, if there is an IHDR. -/
  png_get_IHDR : S → Option (Nat × Nat)
  png_set_interlace_handling : S → Nat × S
  png_start_read_image : S → LibpngCall S
  /-- `png_malloc` of `png_get_rowbytes` bytes, and whether the pointer is not null. -/
  png_malloc_row : S → LibpngCall (S × Bool)
  png_read_row : S → LibpngCall S

/-! ### The objects -/

/-- What the target has made and the destructor is to release. -/
inductive Resource where
  | row | png | info | bufState
deriving DecidableEq, Repr

/-- Which pointers of `ScopedPngObject` are set. -/
structure ScopedPngObject where
  info_ptr : Bool
  row : Bool
  png_ptr : Bool
  buf_state : Bool
deriving DecidableEq, Repr

def ScopedPngObject.store (o : ScopedPngObject) : Resource → ScopedPngObject
  | .row => {o with row := true}
  | .png => {o with png_ptr := true}
  | .info => {o with info_ptr := true}
  | .bufState => {o with buf_state := true}

/-- `~ScopedPngObject`: what it releases, in its order. -/
def ScopedPngObject.released (o : ScopedPngObject) : List Resource :=
  (if o.row && o.png_ptr then [.row] else []) ++ (if o.png_ptr && o.info_ptr then [.png, .info] else []) ++
    if o.buf_state then [.bufState] else []

/-- The target while it runs: the input left, the objects there are, and `O`. -/
structure Frame where
  buf_state : BufState
  live : List Resource
  o : ScopedPngObject

def Frame.withBuf (f : Frame) (b : BufState) : Frame := {f with buf_state := b}

/-- The destructor releases the objects there are, each once. -/
def Frame.Releases (f : Frame) : Prop := f.o.released.Perm f.live

/-- What the target asks of its environment: bytes for libpng, a new object, a pointer set to one. -/
inductive Request where
  | read (length : Nat)
  | make (r : Resource)
  | store (r : Resource)
deriving DecidableEq, Repr

def serve (f : Frame) : Request → Option (V × Frame)
  | .read length => (userReadData f.buf_state length).map fun r => (r.1, f.withBuf r.2)
  | .make r => some ([], {f with live := r :: f.live})
  | .store r => some ([], {f with o := f.o.store r})

/-! ### The target -/

def kPngHeaderSize : Nat := 8

/-- How the target is left; `aborted` is an assertion on a null pointer. -/
inductive TargetExit where
  | tooShort | notPng | aborted | readError | libpngError | noIhdr | tooLarge | finished
deriving DecidableEq, Repr

abbrev TargetCode : Type := Client Request V TargetExit

/-- A call after `setjmp`, and what is done with what it returns. -/
def LibpngCall.andThen {ρ : Type} (c : LibpngCall ρ) (f : ρ → TargetCode) : TargetCode :=
  (c.lift Request.read).bind fun r => r.elim (.done .libpngError) f

/-- An object is made, and its pointer set. -/
def create (r : Resource) (k : TargetCode) : TargetCode := .ask (.make r) fun _ => .ask (.store r) fun _ => k

/-- `for (i = 0; i < n; ++i)` around a call. -/
def forLoop {S : Type} (body : S → LibpngCall S) : Nat → S → LibpngCall S
  | 0, s => .done (some s)
  | n + 1, s => (body s).bind fun r =>
    match r with
    | none => .done none
    | some s' => forLoop body n s'

section Target
variable {S : Type} (L : Libpng S)

/-- The flags for checksum errors: ignored in critical chunks, without a warning in ancillary ones. -/
def Libpng.ignoreCrc (s : S) : S :=
  let s := L.set_flags s (L.flags s &&& ~~~L.crc_critical_mask)
  let s := L.set_flags s (L.flags s ||| L.crc_critical_ignore)
  let s := L.set_flags s (L.flags s &&& ~~~L.crc_ancillary_mask)
  L.set_flags s (L.flags s ||| L.crc_ancillary_nowarn)

/-- The two loops over passes and rows. -/
def readRows (passes height : Nat) (s : S) : TargetCode :=
  (forLoop (forLoop L.png_read_row height) passes s).andThen fun _ => .done .finished

/-- `png_malloc` either jumps, and then `O.row` is not set, or returns. -/
def readImage (height : Nat) (s : S) : TargetCode :=
  let (passes, s) := L.png_set_interlace_handling s
  (L.png_start_read_image s).andThen fun s =>
    (L.png_malloc_row s).andThen fun (s, allocated) =>
      if allocated then create .row (readRows L passes height s) else readRows L passes height s

/-- From what `png_read_info` has left. -/
def afterInfo (s : S) : TargetCode :=
  match L.png_get_IHDR s with
  | none => .done .noIhdr
  | some (width, height) =>
    if height * width % 2 ^ L.bits > 2000000 then .done .tooLarge else readImage L height s

/-- Everything after the signature check: the first three objects are made before `setjmp`. -/
def afterSignature : TargetCode :=
  match L.png_create_read_struct with
  | none => .done .aborted
  | some s => create .png <|
    match L.png_create_info_struct (L.ignoreCrc s) with
    | none => .done .aborted
    | some s => create .info <| create .bufState <|
      (L.png_read_info (L.png_set_sig_bytes s kPngHeaderSize)).andThen (afterInfo L)

/-- How the target is left, what was read, the objects there are then, and what the destructor sees. -/
structure TargetRun where
  exit : TargetExit
  reads : List (Nat × V)
  live : List Resource
  o : ScopedPngObject
deriving DecidableEq

def readsOf (transcript : List (Request × V)) : List (Nat × V) :=
  transcript.filterMap fun r =>
    match r.1 with
    | .read length => some (length, r.2)
    | _ => none

/-- `none` is a refused read. -/
def TargetRun.of (r : Client.Run Request V TargetExit Frame) : TargetRun where
  exit := r.result.getD .readError
  reads := readsOf r.transcript
  live := r.server.live
  o := r.server.o

def noObject : ScopedPngObject := ⟨false, false, false, false⟩

/-- The run on the input after the signature. -/
def runAfterSignature (data : V) : TargetRun := .of ((afterSignature L).run serve ⟨⟨data⟩, [], noObject⟩)

def llvmFuzzerTestOneInput (data : V) : TargetRun :=
  if data.length < kPngHeaderSize then ⟨.tooShort, [], [], noObject⟩
  else if L.png_sig_cmp (data.take kPngHeaderSize) ≠ 0 then ⟨.notPng, [], [], noObject⟩
  else runAfterSignature L (data.drop kPngHeaderSize)

end Target

/-! ### What libpng sees -/

theorem userReadData_some {b b' : BufState} {n : Nat} {block : V} :
    userReadData b n = some (block, b') ↔ block.length = n ∧ b.data = block ++ b'.data := by
  unfold userReadData
  constructor
  · intro h
    split at h
    · cases h
    · cases h
      exact ⟨List.length_take_of_le (by omega), (List.take_append_drop n b.data).symm⟩
  · intro h
    obtain ⟨hlen, hdata⟩ := h
    have hle : n ≤ b.data.length := by
      rw [hdata, List.length_append]
      omega
    rw [if_neg (by omega), hdata, ← hlen, List.take_left' rfl, List.drop_left' rfl]

/-- The blocks of a transcript, one after the other. -/
def delivered (reads : List (Nat × V)) : V := reads.flatMap (·.2)

theorem delivered_cons (r : Nat × V) (reads : List (Nat × V)) :
    delivered (r :: reads) = r.2 ++ delivered reads := List.flatMap_cons

theorem readsOf_lift (reads : List (Nat × V)) :
    readsOf (reads.map fun r => (Request.read r.1, r.2)) = reads := by
  rw [readsOf, List.filterMap_map]
  exact List.filterMap_some

/-- Blocks that were answered have the length asked for, and the buffer starts with them; on any buffer
that does, they are answered again. -/
theorem answers_reads {t : List (Request × V)} {f f' : Frame} (h : Client.Answers serve t f f') :
    (∀ r ∈ readsOf t, r.2.length = r.1) ∧ f.buf_state.data = delivered (readsOf t) ++ f'.buf_state.data ∧
      ∀ rest, Client.Answers serve t (f.withBuf ⟨delivered (readsOf t) ++ rest⟩) (f'.withBuf ⟨rest⟩) := by
  induction h with
  | nil f => exact ⟨(fun r hr => by cases hr), rfl, fun rest => .nil _⟩
  | @cons f f₁ f₂ q a t hserve _ ih =>
    obtain ⟨hall, hdata, hagain⟩ := ih
    cases q with
    | read n =>
      obtain ⟨⟨block, b⟩, hread, heq⟩ := Option.map_eq_some_iff.mp hserve
      cases heq
      obtain ⟨hlen, hbuf⟩ := userReadData_some.mp hread
      have hreads : readsOf ((Request.read n, block) :: t) = (n, block) :: readsOf t := rfl
      rw [hreads]
      refine ⟨List.forall_mem_cons.mpr ⟨hlen, hall⟩, ?_, fun rest => ?_⟩
      · rw [hbuf, delivered_cons, List.append_assoc, ← hdata]
        rfl
      · have hnext : userReadData ⟨delivered ((n, block) :: readsOf t) ++ rest⟩ n =
            some (block, ⟨delivered (readsOf t) ++ rest⟩) := by
          refine userReadData_some.mpr ⟨hlen, ?_⟩
          rw [delivered_cons, List.append_assoc]
        exact .cons (Option.map_eq_some_iff.mpr ⟨_, hnext, rfl⟩) (hagain rest)
    | make r =>
      cases hserve
      exact ⟨hall, hdata, fun rest => .cons rfl (hagain rest)⟩
    | store r =>
      cases hserve
      exact ⟨hall, hdata, fun rest => .cons rfl (hagain rest)⟩

section Runs
variable {S : Type} (L : Libpng S)

/-- A run that no read was refused to is made again on the bytes it has read. -/
theorem run_replay {c : TargetCode} {f : Frame} (h : (TargetRun.of (c.run serve f)).exit ≠ .readError)
    (rest : V) :
    TargetRun.of (c.run serve (f.withBuf ⟨delivered (TargetRun.of (c.run serve f)).reads ++ rest⟩)) =
      TargetRun.of (c.run serve f) := by
  have hagain := (answers_reads (Client.run_answers c f)).2.2 rest
  cases hresult : (c.run serve f).result with
  | none =>
    rw [TargetRun.of, hresult] at h
    exact absurd rfl h
  | some e =>
    have hrun := Client.run_replay c f hresult hagain
    simp only [TargetRun.of] at hrun ⊢
    rw [hrun, hresult]
    rfl

/-! ### What is released -/

/-- libpng reads, and leaves the target's objects and pointers alone. -/
theorem run_libpng {ρ : Type} (c : Client Nat V ρ) (f : Frame) :
    (c.lift Request.read).run serve f =
      ⟨(c.run userReadData f.buf_state).transcript.map fun r => (Request.read r.1, r.2),
        f.withBuf (c.run userReadData f.buf_state).server, (c.run userReadData f.buf_state).result⟩ :=
  @Client.run_lift _ _ _ _ _ userReadData _ Request.read serve Frame.buf_state Frame.withBuf
    (fun _ _ => rfl) (fun _ _ _ => rfl) (fun _ => rfl) (fun _ _ => rfl) c f

/-- A call that returns, and what is done with what it returns. -/
theorem run_andThen {ρ : Type} {c : LibpngCall ρ} {f : Frame} {r : ρ}
    (h : (c.run userReadData f.buf_state).result = some (some r)) (k : ρ → TargetCode) :
    (c.andThen k).run serve f =
      {(k r).run serve (f.withBuf (c.run userReadData f.buf_state).server) with
        transcript := ((c.run userReadData f.buf_state).transcript.map fun q => (Request.read q.1, q.2)) ++
          ((k r).run serve (f.withBuf (c.run userReadData f.buf_state).server)).transcript} := by
  have hresult := (congrArg Client.Run.result (run_libpng c f)).trans h
  have hthen := Client.run_bind_some hresult fun r => r.elim (.done .libpngError) k
  rw [run_libpng] at hthen
  exact hthen

/-- Every run of the code from the frame on that does not abort releases what there is. -/
def Clean (c : TargetCode) (f : Frame) : Prop :=
  (c.run serve f).result ≠ some .aborted → (c.run serve f).server.Releases

theorem clean_done {f : Frame} (h : f.Releases) (e : TargetExit) : Clean (.done e) f := fun _ => h

theorem clean_create {r : Resource} {k : TargetCode} {f : Frame}
    (h : Clean k ⟨f.buf_state, r :: f.live, f.o.store r⟩) : Clean (create r k) f := h

/-- A call that is left by a jump leaves the pointers as they were before it. -/
theorem clean_andThen {ρ : Type} (c : LibpngCall ρ) {k : ρ → TargetCode} {f : Frame} (hf : f.Releases)
    (hk : ∀ r b, Clean (k r) (f.withBuf b)) : Clean (c.andThen k) f := by
  have hrun := run_libpng c f
  intro hexit
  cases hresult : (c.run userReadData f.buf_state).result with
  | none =>
    rw [LibpngCall.andThen, Client.run_bind_none ((congrArg Client.Run.result hrun).trans hresult), hrun]
    exact hf
  | some r =>
    cases r with
    | none =>
      rw [LibpngCall.andThen, Client.run_bind_some ((congrArg Client.Run.result hrun).trans hresult), hrun]
      exact hf
    | some r =>
      rw [run_andThen hresult] at hexit ⊢
      exact hk r _ hexit

theorem readRows_clean (passes height : Nat) (s : S) {f : Frame} (hf : f.Releases) :
    Clean (readRows L passes height s) f :=
  clean_andThen _ hf fun _ _ => clean_done hf _

/-- Three objects are there at `setjmp`, and the row's pointer makes four. -/
theorem three_released : (ScopedPngObject.mk true false true true).released.Perm [.bufState, .info, .png] := by
  decide

theorem four_released :
    (ScopedPngObject.mk true true true true).released.Perm [.row, .bufState, .info, .png] := by
  decide

theorem afterInfo_clean (s : S) (b : BufState) :
    Clean (afterInfo L s) ⟨b, [.bufState, .info, .png], ⟨true, false, true, true⟩⟩ := by
  have hframe : (Frame.mk b [.bufState, .info, .png] ⟨true, false, true, true⟩).Releases := three_released
  unfold afterInfo
  split
  · exact clean_done hframe _
  · split
    · exact clean_done hframe _
    · refine clean_andThen _ three_released fun s b' => clean_andThen _ three_released fun r b'' => ?_
      obtain ⟨s, allocated⟩ := r
      cases allocated with
      | false => exact readRows_clean L _ _ _ three_released
      | true => exact clean_create (readRows_clean L _ _ _ four_released)

theorem afterSignature_clean (b : BufState) : Clean (afterSignature L) ⟨b, [], noObject⟩ := by
  unfold afterSignature
  split
  · exact fun hexit => absurd rfl hexit
  · refine clean_create ?_
    split
    · exact fun hexit => absurd rfl hexit
    · exact clean_create (clean_create (clean_andThen _ three_released fun s b' => afterInfo_clean L s b'))

/-! ### libpng's calls alone -/

/-- A call, and with what it returns another. -/
def LibpngCall.next {ρ τ : Type} (c : LibpngCall ρ) (f : ρ → LibpngCall τ) : LibpngCall τ :=
  c.bind fun r => r.elim (.done none) f

/-- The calls that read, in the order of the book's example, without objects and exits. -/
def Libpng.decode (s : S) : LibpngCall S :=
  (L.png_read_info s).next fun s =>
    match L.png_get_IHDR s with
    | none => .done (some s)
    | some (width, height) =>
      if height * width % 2 ^ L.bits > 2000000 then .done (some s)
      else
        let (passes, s) := L.png_set_interlace_handling s
        (L.png_start_read_image s).next fun s =>
          (L.png_malloc_row s).next fun (s, _) => forLoop (forLoop L.png_read_row height) passes s

/-- The target's code reads what libpng's calls alone do. -/
def Reads {τ : Type} (code : TargetCode) (c : LibpngCall τ) : Prop :=
  ∀ f : Frame, readsOf (code.run serve f).transcript = (c.run userReadData f.buf_state).transcript

theorem reads_done {τ : Type} (e : TargetExit) (r : Option τ) : Reads (.done e) (.done r) := fun _ => rfl

theorem reads_create {τ : Type} {r : Resource} {k : TargetCode} {c : LibpngCall τ} (h : Reads k c) :
    Reads (create r k) c :=
  fun f => h ⟨f.buf_state, r :: f.live, f.o.store r⟩

theorem reads_andThen {ρ τ : Type} (c : LibpngCall ρ) {k : ρ → TargetCode} {g : ρ → LibpngCall τ}
    (h : ∀ r, Reads (k r) (g r)) : Reads (c.andThen k) (c.next g) := by
  intro f
  have hrun := run_libpng c f
  cases hresult : (c.run userReadData f.buf_state).result with
  | none =>
    rw [LibpngCall.andThen, Client.run_bind_none ((congrArg Client.Run.result hrun).trans hresult), hrun,
      LibpngCall.next, Client.run_bind_none hresult]
    exact readsOf_lift _
  | some r =>
    cases r with
    | none =>
      rw [LibpngCall.andThen, Client.run_bind_some ((congrArg Client.Run.result hrun).trans hresult), hrun,
        LibpngCall.next, Client.run_bind_some hresult]
      simp only [Option.elim, Client.run, List.append_nil, readsOf_lift]
    | some r =>
      rw [run_andThen hresult, LibpngCall.next, Client.run_bind_some hresult, readsOf, List.filterMap_append]
      exact congrArg₂ (· ++ ·) (readsOf_lift _) (h r _)

/-- What is done after the last call reads nothing. -/
theorem reads_last {ρ : Type} (c : LibpngCall ρ) (e : TargetExit) : Reads (c.andThen fun _ => .done e) c := by
  intro f
  have hrun := run_libpng c f
  cases hresult : (c.run userReadData f.buf_state).result with
  | none =>
    rw [LibpngCall.andThen, Client.run_bind_none ((congrArg Client.Run.result hrun).trans hresult), hrun]
    exact readsOf_lift _
  | some r =>
    rw [LibpngCall.andThen, Client.run_bind_some ((congrArg Client.Run.result hrun).trans hresult), hrun]
    cases r <;> simp only [Option.elim, Client.run, List.append_nil, readsOf_lift]

theorem afterInfo_reads (s : S) :
    Reads ((L.png_read_info s).andThen (afterInfo L)) (L.decode s) := by
  refine reads_andThen _ fun s => ?_
  unfold afterInfo
  split
  · exact reads_done _ _
  · split
    · exact reads_done _ _
    · refine reads_andThen _ fun s => reads_andThen _ fun r => ?_
      obtain ⟨s, allocated⟩ := r
      cases allocated with
      | false => exact reads_last _ _
      | true => exact reads_create (reads_last _ _)

/-- The struct `png_read_info` is called with. -/
def Libpng.ready : Option S :=
  L.png_create_read_struct.bind fun s =>
    (L.png_create_info_struct (L.ignoreCrc s)).map fun s => L.png_set_sig_bytes s kPngHeaderSize

theorem afterSignature_ready {s : S} (h : L.ready = some s) :
    afterSignature L =
      create .png (create .info (create .bufState ((L.png_read_info s).andThen (afterInfo L)))) := by
  obtain ⟨s₀, hread, hs₀⟩ := Option.bind_eq_some_iff.mp h
  obtain ⟨s₁, hinfo, rfl⟩ := Option.map_eq_some_iff.mp hs₀
  simp only [afterSignature, hread, hinfo]

/-- libpng is fed what its calls alone ask for. -/
theorem runAfterSignature_reads {s : S} (h : L.ready = some s) (data : V) :
    (runAfterSignature L data).reads = ((L.decode s).run userReadData ⟨data⟩).transcript := by
  rw [runAfterSignature, afterSignature_ready L h]
  exact reads_create (reads_create (reads_create (afterInfo_reads L s))) _

/-! ### Large images -/

/-- What is in the header says more than two million pixels, in `png_uint_32` arithmetic. -/
def Libpng.TooLarge (s : S) : Prop :=
  ∃ width height, L.png_get_IHDR s = some (width, height) ∧ height * width % 2 ^ L.bits > 2000000

theorem afterInfo_tooLarge {s : S} (h : L.TooLarge s) : afterInfo L s = .done .tooLarge := by
  obtain ⟨width, height, hihdr, hlarge⟩ := h
  rw [afterInfo, hihdr]
  exact if_pos hlarge

/-- A large image is left with what `png_read_info` has read, and without a row. -/
theorem runAfterSignature_tooLarge {data : V} {s s' : S} (hready : L.ready = some s)
    (hinfo : ((L.png_read_info s).run userReadData ⟨data⟩).result = some (some s')) (hlarge : L.TooLarge s') :
    runAfterSignature L data =
      ⟨.tooLarge, ((L.png_read_info s).run userReadData ⟨data⟩).transcript, [.bufState, .info, .png],
        ⟨true, false, true, true⟩⟩ := by
  have hcode : runAfterSignature L data =
      .of (((L.png_read_info s).andThen (afterInfo L)).run serve
        ⟨⟨data⟩, [.bufState, .info, .png], ⟨true, false, true, true⟩⟩) := by
    rw [runAfterSignature, afterSignature_ready L hready]
    rfl
  rw [hcode, run_andThen hinfo, afterInfo_tooLarge L hlarge, TargetRun.of, Client.run]
  simp only [List.append_nil, readsOf_lift]
  rfl

/-- **libpng gets the input after the signature, in order, each byte at most once, as its calls in the book's
order ask for it; the bytes behind the last one it gets make no difference; a large image is left as soon as
its header is read; and on every exit what was made is released.** -/
theorem target_contract (data : V) :
    let r := llvmFuzzerTestOneInput L data
    (∀ q ∈ r.reads, q.2.length = q.1) ∧ delivered r.reads <+: data.drop kPngHeaderSize ∧
      (r.exit ≠ .tooShort → r.exit ≠ .readError → ∀ rest, llvmFuzzerTestOneInput L
        (data.take kPngHeaderSize ++ (delivered r.reads ++ rest)) = r) ∧
      (∀ s, kPngHeaderSize ≤ data.length → L.png_sig_cmp (data.take kPngHeaderSize) = 0 → L.ready = some s →
        r.reads = ((L.decode s).run userReadData ⟨data.drop kPngHeaderSize⟩).transcript ∧
        ∀ s', ((L.png_read_info s).run userReadData ⟨data.drop kPngHeaderSize⟩).result = some (some s') →
          L.TooLarge s' → r.exit = .tooLarge ∧
            r.reads = ((L.png_read_info s).run userReadData ⟨data.drop kPngHeaderSize⟩).transcript) ∧
      (r.exit ≠ .aborted → r.o.released.Perm r.live) := by
  intro r
  have hr : r = llvmFuzzerTestOneInput L data := rfl
  unfold llvmFuzzerTestOneInput at hr
  by_cases hshort : data.length < kPngHeaderSize
  · rw [if_pos hshort] at hr
    rw [hr]
    exact ⟨(fun q hq => by cases hq), List.nil_prefix, fun h => absurd rfl h,
      fun _ hlong => absurd hshort (Nat.not_lt.mpr hlong), fun _ => .nil⟩
  · have hhead : (data.take kPngHeaderSize).length = kPngHeaderSize :=
      List.length_take_of_le (Nat.not_lt.mp hshort)
    have hagain (rest : V) : llvmFuzzerTestOneInput L (data.take kPngHeaderSize ++ rest) =
        if L.png_sig_cmp (data.take kPngHeaderSize) ≠ 0 then ⟨.notPng, [], [], noObject⟩
        else runAfterSignature L rest := by
      have hlong : ¬(data.take kPngHeaderSize ++ rest).length < kPngHeaderSize := by
        rw [List.length_append, hhead]
        omega
      rw [llvmFuzzerTestOneInput, if_neg hlong, List.take_left' hhead, List.drop_left' hhead]
    rw [if_neg hshort] at hr
    split at hr
    · rename_i hsig
      rw [hr]
      refine ⟨(fun q hq => by cases hq), List.nil_prefix, fun _ _ rest => ?_,
        fun _ _ hsig' => absurd hsig' hsig, fun _ => .nil⟩
      rw [hagain, if_pos hsig]
    · rename_i hsig
      rw [hr]
      obtain ⟨hlen, hdata, -⟩ := answers_reads (Client.run_answers (afterSignature L)
        (⟨⟨data.drop kPngHeaderSize⟩, [], noObject⟩ : Frame))
      refine ⟨hlen, ⟨_, hdata.symm⟩, fun _ hread rest => ?_, fun s _ _ hready => ?_, fun hexit => ?_⟩
      · rw [hagain, if_neg hsig]
        exact run_replay hread rest
      · refine ⟨runAfterSignature_reads L hready _, fun s' hinfo hlarge => ?_⟩
        rw [runAfterSignature_tooLarge L hready hinfo hlarge]
        exact ⟨rfl, rfl⟩
      · refine afterSignature_clean L _ fun habort => hexit ?_
        rw [runAfterSignature, TargetRun.of, habort]
        rfl

/-- A corpus entry the entry points made starts with the signature. -/
theorem entry_header {z : Zlib} {sh : Shuffle} (h : History) {data : V} (hdata : h.entry z sh = some data) :
    data ∈ h.seeds ∨ ∃ body, data = header ++ body := by
  have hserial {p : PngMutator} {str : V} (hstr : serialize z p = some str) : ∃ body, str = header ++ body := by
    rw [serialize_eq] at hstr
    obtain ⟨cs, -, rfl⟩ := Option.map_eq_some_iff.mp hstr
    exact ⟨_, rfl⟩
  induction h generalizing data with
  | initial data₀ =>
    cases hdata
    exact .inl (List.mem_singleton.mpr rfl)
  | mutant h m maxSize seed ih =>
    rw [entry_mutant] at hdata
    simp only [Option.bind_eq_some_iff, Option.map_eq_some_iff] at hdata
    obtain ⟨data₀, hdata₀, p, -, q, -, str, hstr, hfit⟩ := hdata
    split at hfit
    · exact hfit ▸ ih hdata₀
    · exact hfit ▸ .inr (hserial hstr)
  | offspring h₁ h₂ maxOutSize seed =>
    rw [entry_offspring] at hdata
    simp only [Option.bind_eq_some_iff] at hdata
    obtain ⟨-, -, -, -, -, -, -, -, q, -, str, hstr, hfit⟩ := hdata
    split at hfit
    · cases hfit
    · cases hfit
      exact .inr (hserial hstr)

/-- It gets as far as libpng. -/
theorem entry_reaches (hsig : L.png_sig_cmp header = 0) {z : Zlib} {sh : Shuffle} (h : History) {data : V}
    (hdata : h.entry z sh = some data) :
    data ∈ h.seeds ∨
      ∃ body, data = header ++ body ∧ llvmFuzzerTestOneInput L data = runAfterSignature L body := by
  rcases entry_header h hdata with hseed | ⟨body, rfl⟩
  · exact .inl hseed
  · right
    have hsize : header.length = kPngHeaderSize := header_length
    have hlong : ¬(header ++ body).length < kPngHeaderSize := by
      rw [List.length_append, hsize]
      exact Nat.not_lt.mpr (Nat.le_add_right ..)
    refine ⟨body, rfl, ?_⟩
    rw [llvmFuzzerTestOneInput, if_neg hlong, List.take_left' hsize, hsig, if_neg (by decide),
      List.drop_left' hsize]

end Runs

/-! ### A sample -/

/-- Reads width and height, and then as many bytes for each row as the image is wide. -/
def sampleLibpng : Libpng V where
  bits := 32
  png_sig_cmp v := if v = header then 0 else 1
  png_create_read_struct := some []
  png_create_info_struct := some
  flags _ := 0
  set_flags s _ := s
  crc_critical_mask := 0
  crc_critical_ignore := 0
  crc_ancillary_mask := 0
  crc_ancillary_nowarn := 0
  png_set_sig_bytes s _ := s
  png_read_info _ := .ask 8 fun v => .done (some v)
  png_get_IHDR s := some (leNat (s.take 4).reverse, leNat (s.drop 4).reverse)
  png_set_interlace_handling s := (1, s)
  png_start_read_image s := .done (some s)
  png_malloc_row s := .done (some (s, true))
  png_read_row s := .ask (leNat (s.take 4).reverse) fun _ => .done (some s)

/-- Two columns and one row, and a byte that is not read. -/
def sampleImage : V := header ++ [0, 0, 0, 2, 0, 0, 0, 1, 7, 8, 9]

theorem sampleImage_contract :
    llvmFuzzerTestOneInput sampleLibpng sampleImage =
        ⟨.finished, [(8, [0, 0, 0, 2, 0, 0, 0, 1]), (2, [7, 8])], [.row, .bufState, .info, .png],
          ⟨true, true, true, true⟩⟩ ∧
      (∀ rest, llvmFuzzerTestOneInput sampleLibpng (header ++ ([0, 0, 0, 2, 0, 0, 0, 1, 7, 8] ++ rest)) =
        llvmFuzzerTestOneInput sampleLibpng sampleImage) ∧
      (llvmFuzzerTestOneInput sampleLibpng sampleImage).reads =
        ((sampleLibpng.decode []).run userReadData ⟨sampleImage.drop kPngHeaderSize⟩).transcript ∧
      (llvmFuzzerTestOneInput sampleLibpng sampleImage).o.released.Perm
        (llvmFuzzerTestOneInput sampleLibpng sampleImage).live := by
  have hrun : llvmFuzzerTestOneInput sampleLibpng sampleImage =
      ⟨.finished, [(8, [0, 0, 0, 2, 0, 0, 0, 1]), (2, [7, 8])], [.row, .bufState, .info, .png],
        ⟨true, true, true, true⟩⟩ := by decide +kernel
  obtain ⟨-, -, hrest, hcalls, hreleased⟩ := target_contract sampleLibpng sampleImage
  obtain ⟨hreads, -⟩ := hcalls [] (by decide) (by decide) rfl
  rw [hrun] at hrest hreads hreleased ⊢
  exact ⟨rfl, hrest (by decide) (by decide), hreads, hreleased (by decide)⟩

end FuzzerTestSuite.Png
