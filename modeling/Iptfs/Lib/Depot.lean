import Iptfs.Lib.Refcount

/-!
# `Iptfs.Lib.Depot`: reference-counted buffers in boxes, shared by two threads

A depot has a pool of buffers of type `β` and a pool of `n` boxes. An entry of a box is a
reference to a buffer, so one buffer can be in several boxes. A thread can have references of its
own, buffers without references in its hands, boxes that it works on, and boxes that it has
emptied (`Holding`). The rest is shared: the free buffers, the counts, the entries, the idle boxes
and the boxes that were sent from one thread to the other (`Depot`).

`Balanced` is the invariant: the buffers are counted as in `Iptfs.Lib.Refcount`, each box is in one
place, and only a box that is in use has entries. There is one lemma for each thing that a thread
can do. Each is about the thread `h`, with `g` for the other one; `Balanced.symm` exchanges them.

`Balanced.exists_free` and `Balanced.length_boxes` are the counting arguments: what it takes for no
buffer to be free, and where the boxes are.
-/

set_option autoImplicit false

namespace Iptfs.Lib

/-- The shared part of a depot. -/
structure Depot (β : Type) where
  free : List β
  rc : β → Int
  cells : Nat → List β
  idle : List Nat
  sent : List Nat

/-- What a thread has. -/
structure Holding (β : Type) where
  own : List β
  hands : List β
  boxes : List Nat
  emptied : List Nat

variable {β : Type} [DecidableEq β]

namespace Depot

/-- The number of entries that refer to `b`. -/
def entries (n : Nat) (D : Depot β) (b : β) : Nat :=
  ∑ k ∈ Finset.range n, (D.cells k).count b

/-- The references to `b`: those that the threads have, and the entries. -/
def refs (n : Nat) (D : Depot β) (h g : Holding β) (b : β) : Nat :=
  h.own.count b + g.own.count b + D.entries n b

/-- How often a thread has `b` in its hands. -/
def held (h g : Holding β) (b : β) : Nat := h.hands.count b + g.hands.count b

/-- The boxes, by where they are. -/
def places (D : Depot β) (h g : Holding β) : List Nat :=
  D.idle ++ (D.sent ++ (h.boxes ++ h.emptied ++ (g.boxes ++ g.emptied)))

/-- The books of a depot. -/
structure Balanced (pool : β → Nat) (n : Nat) (D : Depot β) (h g : Holding β) : Prop where
  counted : Counted pool (fun b => D.free.count b) (held h g) (D.refs n h g) (D.refs n h g)
  rc_eq : ∀ b, D.rc b = D.refs n h g b
  placed : (D.places h g).Perm (List.range n)
  used : ∀ k, D.cells k ≠ [] → k ∈ D.sent ++ (h.boxes ++ g.boxes)

variable {pool : β → Nat} {n : Nat} {D : Depot β} {h g : Holding β}

/-- The two threads in the other order. -/
theorem Balanced.symm (hB : Balanced pool n D h g) : Balanced pool n D g h where
  counted := by
    have hrefs : D.refs n g h = D.refs n h g := by
      funext b
      unfold refs
      omega
    rw [hrefs]
    refine hB.counted.congr (fun b => ?_) fun _ => rfl
    unfold held
    omega
  rc_eq := by
    intro b
    rw [hB.rc_eq b]
    unfold refs
    omega
  placed := by
    refine List.Perm.trans ?_ hB.placed
    rw [List.perm_iff_count]
    intro c
    simp only [places, List.count_append]
    omega
  used := by
    intro k hk
    -- The boxes of the two threads are listed in another order.
    have hmem := hB.used k hk
    simp only [List.mem_append] at hmem ⊢
    tauto

/-! ### The counts -/

/-- The books before anything has happened. -/
theorem balanced_init {all : List β} (hle : ∀ b, pool b ≤ 1) (hall : ∀ b, all.count b = pool b)
    {idle : List Nat} (hidle : idle.Perm (List.range n)) :
    Balanced pool n ⟨all, fun _ => 0, fun _ => [], idle, []⟩ ⟨[], [], [], []⟩
      ⟨[], [], [], []⟩ where
  counted := by
    have hzero : ∀ b, refs n ⟨all, fun _ => 0, fun _ => [], idle, []⟩ ⟨[], [], [], []⟩
        ⟨[], [], [], []⟩ b = 0 := by
      intro b
      simp [refs, entries]
    refine ⟨hle, fun b => rfl, fun b => ?_⟩
    rw [hzero b]
    exact hall b
  rc_eq := by
    intro b
    simp [refs, entries]
  placed := by
    simpa [places] using hidle
  used := fun k hk => absurd rfl hk

/-- One more reference to `b`, in the books. -/
theorem rc_add {rc : β → Int} {refs refs' : β → Nat} {b : β} (hrc : ∀ c, rc c = refs c)
    (hrefs : ∀ c, refs' c = refs c + single b c) (c : β) :
    Function.update rc b (rc b + 1) c = refs' c := by
  have hc := hrc c
  have hr := hrefs c
  rcases eq_or_ne c b with rfl | hne
  · rw [single_self] at hr
    rw [Function.update_self]
    omega
  · rw [single_of_ne hne] at hr
    rw [Function.update_of_ne hne]
    omega

/-- One reference to `b` less, in the books. -/
theorem rc_sub {rc : β → Int} {refs refs' : β → Nat} {b : β} (hrc : ∀ c, rc c = refs c)
    (hrefs : ∀ c, refs c = refs' c + single b c) (c : β) :
    Function.update rc b (rc b - 1) c = refs' c := by
  have hc := hrc c
  have hr := hrefs c
  rcases eq_or_ne c b with rfl | hne
  · rw [single_self] at hr
    rw [Function.update_self]
    omega
  · rw [single_of_ne hne] at hr
    rw [Function.update_of_ne hne]
    omega

/-- A box that a thread works on is one of the pool. -/
theorem Balanced.lt_of_mem (hB : Balanced pool n D h g) {k : Nat} (hk : k ∈ h.boxes) : k < n := by
  apply List.mem_range.mp
  apply hB.placed.mem_iff.mp
  simp only [places, List.mem_append]
  tauto

/-! ### Buffers -/

/-- A free buffer is taken. -/
theorem Balanced.take (hB : Balanced pool n D h g) {b : β} {free : List β}
    (hfree : D.free = b :: free) :
    Balanced pool n { D with free := free } { h with hands := b :: h.hands } g where
  counted := by
    refine hB.counted.take (b := b) (fun c => ?_) fun c => ?_
    · rw [hfree, count_cons_single]
    · unfold held
      rw [count_cons_single]
      omega
  rc_eq := hB.rc_eq
  placed := hB.placed
  used := hB.used

/-- A buffer without references goes back to the free ones. -/
theorem Balanced.put (hB : Balanced pool n D h g) {b : β} {hands : List β}
    (hhands : h.hands = b :: hands) :
    Balanced pool n { D with free := b :: D.free } { h with hands := hands } g where
  counted := by
    refine hB.counted.put (b := b) (fun c => ?_) fun c => ?_
    · unfold held
      dsimp only
      rw [hhands, count_cons_single]
      omega
    · exact count_cons_single b c D.free
  rc_eq := hB.rc_eq
  placed := hB.placed
  used := hB.used

/-- The thread takes a reference of its own to the buffer in its hands. -/
theorem Balanced.claim (hB : Balanced pool n D h g) {b : β} {hands : List β}
    (hhands : h.hands = b :: hands) :
    Balanced pool n { D with rc := Function.update D.rc b (D.rc b + 1) }
      { h with own := b :: h.own, hands := hands } g := by
  have hrefs : ∀ c, D.refs n { h with own := b :: h.own, hands := hands } g c =
      D.refs n h g c + single b c := by
    intro c
    unfold refs
    rw [count_cons_single]
    omega
  refine ⟨hB.counted.claim (b := b) (fun c => ?_) hrefs hrefs, rc_add hB.rc_eq hrefs, hB.placed,
    hB.used⟩
  unfold held
  dsimp only
  rw [hhands, count_cons_single]
  omega

/-- The thread drops a reference of its own, and there are others. -/
theorem Balanced.release (hB : Balanced pool n D h g) {b : β} {own : List β}
    (hown : h.own = b :: own) (hrc : D.rc b ≠ 1) :
    Balanced pool n { D with rc := Function.update D.rc b (D.rc b - 1) } { h with own := own }
      g := by
  have hrefs : ∀ c, D.refs n h g c = D.refs n { h with own := own } g c + single b c := by
    intro c
    unfold refs
    dsimp only
    rw [hown, count_cons_single]
    omega
  have hne : D.refs n h g b ≠ 1 := by
    have heq := hB.rc_eq b
    omega
  exact ⟨hB.counted.drop hne hrefs hrefs, rc_sub hB.rc_eq hrefs, hB.placed, hB.used⟩

/-- The thread drops a reference of its own, which was the last. -/
theorem Balanced.releaseLast (hB : Balanced pool n D h g) {b : β} {own : List β}
    (hown : h.own = b :: own) (hrc : D.rc b = 1) :
    Balanced pool n { D with rc := Function.update D.rc b (D.rc b - 1) }
      { h with own := own, hands := b :: h.hands } g := by
  have hrefs : ∀ c, D.refs n h g c = D.refs n { h with own := own } g c + single b c := by
    intro c
    unfold refs
    dsimp only
    rw [hown, count_cons_single]
    omega
  have hone : D.refs n h g b = 1 := by
    have heq := hB.rc_eq b
    omega
  refine ⟨hB.counted.dropLast hone hrefs hrefs fun c => ?_, rc_sub hB.rc_eq hrefs, hB.placed,
    hB.used⟩
  unfold held
  rw [count_cons_single]
  omega

/-! ### Entries -/

/-- Only boxes in use have entries, also after one of them is written. -/
theorem Balanced.used_update (hB : Balanced pool n D h g) {k : Nat} (hk : k ∈ h.boxes)
    (l : List β) (j : Nat) (hj : Function.update D.cells k l j ≠ []) :
    j ∈ D.sent ++ (h.boxes ++ g.boxes) := by
  rcases eq_or_ne j k with rfl | hne
  · simp only [List.mem_append]
    tauto
  · rw [Function.update_of_ne hne] at hj
    exact hB.used j hj

/-- An entry for a buffer of its own is added to a box of the thread. -/
theorem Balanced.share (hB : Balanced pool n D h g) {b : β} {k : Nat} (hown : b ∈ h.own)
    (hk : k ∈ h.boxes) :
    Balanced pool n { D with
      rc := Function.update D.rc b (D.rc b + 1)
      cells := Function.update D.cells k (D.cells k ++ [b]) } h g := by
  have hrefs : ∀ c, refs n { D with
      rc := Function.update D.rc b (D.rc b + 1)
      cells := Function.update D.cells k (D.cells k ++ [b]) } h g c =
        D.refs n h g c + single b c := by
    intro c
    have hentries : entries n { D with
        rc := Function.update D.rc b (D.rc b + 1)
        cells := Function.update D.cells k (D.cells k ++ [b]) } c + (D.cells k).count c =
          D.entries n c + (D.cells k ++ [b]).count c :=
      sum_update (fun l : List β => l.count c) D.cells (hB.lt_of_mem hk) _
    rw [List.count_append, count_cons_single, List.count_nil] at hentries
    unfold refs
    omega
  -- The thread has a reference already, so the new one is not the first.
  have hpos : 0 < D.refs n h g b := by
    have hcount := List.count_pos_iff.mpr hown
    unfold refs
    omega
  exact ⟨hB.counted.share hpos hrefs hrefs, rc_add hB.rc_eq hrefs, hB.placed,
    hB.used_update hk _⟩

/-- The references after the first entry of a box is gone. -/
theorem Balanced.refs_cut (hB : Balanced pool n D h g) {b : β} {k : Nat} {rest : List β}
    (hk : k ∈ h.boxes) (hcell : D.cells k = b :: rest) (rc : β → Int) (c : β) :
    D.refs n h g c = refs n { D with rc := rc, cells := Function.update D.cells k rest } h g c +
      single b c := by
  have hentries : entries n { D with rc := rc, cells := Function.update D.cells k rest } c +
      (D.cells k).count c = D.entries n c + rest.count c :=
    sum_update (fun l : List β => l.count c) D.cells (hB.lt_of_mem hk) _
  rw [hcell, count_cons_single] at hentries
  unfold refs
  omega

/-- The first entry of a box of the thread is dropped, and there are other references. -/
theorem Balanced.cut (hB : Balanced pool n D h g) {b : β} {k : Nat} {rest : List β}
    (hk : k ∈ h.boxes) (hcell : D.cells k = b :: rest) (hrc : D.rc b ≠ 1) :
    Balanced pool n { D with
      rc := Function.update D.rc b (D.rc b - 1)
      cells := Function.update D.cells k rest } h g := by
  have hrefs := hB.refs_cut hk hcell (Function.update D.rc b (D.rc b - 1))
  have hne : D.refs n h g b ≠ 1 := by
    have heq := hB.rc_eq b
    omega
  exact ⟨hB.counted.drop hne hrefs hrefs, rc_sub hB.rc_eq hrefs, hB.placed, hB.used_update hk _⟩

/-- The first entry of a box of the thread is dropped, which was the last reference. -/
theorem Balanced.cutLast (hB : Balanced pool n D h g) {b : β} {k : Nat} {rest : List β}
    (hk : k ∈ h.boxes) (hcell : D.cells k = b :: rest) (hrc : D.rc b = 1) :
    Balanced pool n { D with
      rc := Function.update D.rc b (D.rc b - 1)
      cells := Function.update D.cells k rest } { h with hands := b :: h.hands } g := by
  have hrefs := hB.refs_cut hk hcell (Function.update D.rc b (D.rc b - 1))
  have hone : D.refs n h g b = 1 := by
    have heq := hB.rc_eq b
    omega
  refine ⟨hB.counted.dropLast hone hrefs hrefs fun c => ?_, rc_sub hB.rc_eq hrefs, hB.placed,
    hB.used_update hk _⟩
  unfold held
  rw [count_cons_single]
  omega

/-! ### Boxes -/

/-- The boxes are where they were, up to the order. -/
theorem Balanced.move (hB : Balanced pool n D h g) {D' : Depot β} {h' : Holding β}
    (hfree : D'.free = D.free) (hrc : D'.rc = D.rc) (hcells : D'.cells = D.cells)
    (hown : h'.own = h.own) (hhands : h'.hands = h.hands)
    (hplaces : ∀ c, (D'.places h' g).count c = (D.places h g).count c)
    (hused : ∀ k, D.cells k ≠ [] → k ∈ D.sent ++ (h.boxes ++ g.boxes) →
      k ∈ D'.sent ++ (h'.boxes ++ g.boxes)) :
    Balanced pool n D' h' g := by
  have hrefs : D'.refs n h' g = D.refs n h g := by
    unfold refs entries
    rw [hown, hcells]
  refine ⟨?_, ?_, (List.perm_iff_count.mpr hplaces).trans hB.placed, ?_⟩
  · rw [hfree, hrefs]
    refine hB.counted.congr (fun c => ?_) fun _ => rfl
    unfold held
    rw [hhands]
  · rw [hrc, hrefs]
    exact hB.rc_eq
  · intro k hk
    rw [hcells] at hk
    exact hused k hk (hB.used k hk)

/-- An idle box is taken. -/
theorem Balanced.takeBox (hB : Balanced pool n D h g) {k : Nat} {idle : List Nat}
    (hidle : D.idle = k :: idle) :
    Balanced pool n { D with idle := idle } { h with boxes := k :: h.boxes } g := by
  refine hB.move rfl rfl rfl rfl rfl (fun c => ?_) fun j _ hj => ?_
  · simp only [places, hidle, List.count_append, List.count_cons]
    omega
  · simp only [List.mem_append, List.mem_cons] at hj ⊢
    tauto

/-- A box of the thread is sent. -/
theorem Balanced.send (hB : Balanced pool n D h g) {k : Nat} {boxes : List Nat}
    (hboxes : h.boxes = k :: boxes) :
    Balanced pool n { D with sent := k :: D.sent } { h with boxes := boxes } g := by
  refine hB.move rfl rfl rfl rfl rfl (fun c => ?_) fun j _ hj => ?_
  · simp only [places, hboxes, List.count_append, List.count_cons]
    omega
  · simp only [hboxes, List.mem_append, List.mem_cons] at hj ⊢
    tauto

/-- A box that was sent is taken. -/
theorem Balanced.receive (hB : Balanced pool n D h g) {k : Nat} {sent : List Nat}
    (hsent : D.sent = k :: sent) :
    Balanced pool n { D with sent := sent } { h with boxes := k :: h.boxes } g := by
  refine hB.move rfl rfl rfl rfl rfl (fun c => ?_) fun j _ hj => ?_
  · simp only [places, hsent, List.count_append, List.count_cons]
    omega
  · simp only [hsent, List.mem_append, List.mem_cons] at hj ⊢
    tauto

/-- The thread is done with a box without entries. -/
theorem Balanced.finish (hB : Balanced pool n D h g) {k : Nat} {boxes : List Nat}
    (hboxes : h.boxes = k :: boxes) (hcell : D.cells k = []) :
    Balanced pool n D { h with boxes := boxes, emptied := k :: h.emptied } g := by
  refine hB.move rfl rfl rfl rfl rfl (fun c => ?_) fun j hne hj => ?_
  · simp only [places, hboxes, List.count_append, List.count_cons]
    omega
  -- A box that has entries is not the one that is put down.
  · have hjk : j ≠ k := fun heq => hne (heq ▸ hcell)
    simp only [hboxes, List.mem_append, List.mem_cons] at hj ⊢
    tauto

/-- A box without entries goes back to the idle ones. -/
theorem Balanced.giveBack (hB : Balanced pool n D h g) {k : Nat} {emptied : List Nat}
    (hemptied : h.emptied = k :: emptied) :
    Balanced pool n { D with idle := k :: D.idle } { h with emptied := emptied } g := by
  refine hB.move rfl rfl rfl rfl rfl (fun c => ?_) fun j _ hj => hj
  simp only [places, hemptied, List.count_append, List.count_cons]
  omega

/-! ### Counting -/

/-- All boxes are somewhere. -/
theorem Balanced.length_boxes (hB : Balanced pool n D h g) :
    D.idle.length + D.sent.length + (h.boxes.length + h.emptied.length) +
      (g.boxes.length + g.emptied.length) = n := by
  have hlen := hB.placed.length_eq
  rw [List.length_range] at hlen
  simp only [places, List.length_append] at hlen
  omega

/-- An idle box has no entries. -/
theorem Balanced.cells_idle (hB : Balanced pool n D h g) {k : Nat} (hk : k ∈ D.idle) :
    D.cells k = [] := by
  by_contra hne
  have hused := hB.used k hne
  -- An idle box with entries would be in use too, and so in two places.
  have hnodup : (D.places h g).Nodup := hB.placed.nodup_iff.mpr List.nodup_range
  unfold places at hnodup
  refine (List.nodup_append.mp hnodup).2.2 k hk k ?_ rfl
  simp only [List.mem_append] at hused ⊢
  tauto

/-- A buffer in the hands of a thread has no entries. -/
theorem Balanced.notMem_cells (hB : Balanced pool n D h g) {b : β} (hb : b ∈ h.hands) (k : Nat) :
    b ∉ D.cells k := by
  intro hmem
  -- The box is one of the pool, since it is in use.
  have hused := hB.used k (List.ne_nil_of_mem hmem)
  have hk : k ∈ List.range n := by
    apply hB.placed.mem_iff.mp
    simp only [places, List.mem_append] at hused ⊢
    tauto
  have hheld : 0 < held h g b := by
    have hcount := List.count_pos_iff.mpr hb
    unfold held
    omega
  have hrefs : D.refs n h g b = 0 := hB.counted.rc_of_held hheld
  have hentries : D.entries n b = 0 := by
    unfold refs at hrefs
    omega
  have hzero := Finset.sum_eq_zero_iff.mp hentries k (Finset.mem_range.mpr (List.mem_range.mp hk))
  exact List.count_eq_zero.mp hzero hmem

/-- A box of the thread is nowhere else. -/
theorem Balanced.only (hB : Balanced pool n D h g) {k : Nat} (hk : k ∈ h.boxes) :
    k ∉ D.idle ∧ k ∉ D.sent ∧ k ∉ g.boxes ∧ k ∉ g.emptied := by
  have hnodup : (D.places h g).Nodup := hB.placed.nodup_iff.mpr List.nodup_range
  simp only [places, List.nodup_append, List.mem_append] at hnodup
  obtain ⟨-, ⟨-, ⟨-, -, hmine⟩, hsent⟩, hidle⟩ := hnodup
  exact ⟨fun hm => hidle k hm k (by tauto) rfl, fun hm => hsent k hm k (by tauto) rfl,
    fun hm => hmine k (.inl hk) k (.inl hm) rfl, fun hm => hmine k (.inl hk) k (.inr hm) rfl⟩

/-- A thread that has a buffer in its hands finds room among the free ones. -/
theorem Balanced.length_free (hB : Balanced pool n D h g) {all : List β}
    (hall : ∀ b, b ∈ all ↔ pool b = 1) {b : β} (hb : b ∈ h.hands) :
    D.free.length < all.length := by
  refine hB.counted.length_free_lt hall (b := b) ?_
  have hcount := List.count_pos_iff.mpr hb
  unfold held
  omega

/-- When no thread has a reference of its own or a buffer in its hands, the other thread has no
box, and none is on its way, the buffers that are not free are in the boxes of this thread. -/
theorem Balanced.exists_free (hB : Balanced pool n D h g) {all : List β} (hall : all.Nodup)
    (hpool : ∀ b ∈ all, pool b = 1) (hown : h.own = []) (hown' : g.own = []) (hhands : h.hands = [])
    (hhands' : g.hands = []) (hsent : D.sent = []) (hboxes : g.boxes = [])
    (hlen : (h.boxes.flatMap D.cells).length < all.length) : D.free ≠ [] := by
  -- All references are entries, and all entries are in boxes of this thread.
  have hreached : ∀ b, 0 < D.refs n h g b → b ∈ h.boxes.flatMap D.cells := by
    intro b hb
    unfold refs entries at hb
    rw [hown, hown', List.count_nil, Nat.zero_add] at hb
    rcases Finset.exists_ne_zero_of_sum_ne_zero (Nat.ne_of_gt hb) with ⟨k, -, hk⟩
    have hmem : b ∈ D.cells k := List.count_pos_iff.mp (Nat.pos_of_ne_zero hk)
    have hused := hB.used k (List.ne_nil_of_mem hmem)
    rw [hsent, hboxes, List.nil_append, List.append_nil] at hused
    exact List.mem_flatMap.mpr ⟨k, hused, hmem⟩
  have hheld : ∀ b, held h g b = 0 := by
    intro b
    unfold held
    rw [hhands, hhands']
    rfl
  -- So some buffer has no references, and it is in nobody's hands.
  rcases hB.counted.exists_free hall hpool hheld hreached hlen with ⟨b, -, hb⟩
  exact List.ne_nil_of_mem (List.count_pos_iff.mp hb)

end Depot

end Iptfs.Lib
