import Keyspace.Proofs.Run.Move
import Keyspace.Proofs.Store.Commit
import Keyspace.Proofs.Text.Head

/-!
# The log and the feeds

What a call commits goes to the end of the log and, as far as it is for them, to the ends of the live
feeds (`posts_answer`). Where only text is put, all keys are text, those of events too (`logs_answer`).
-/

namespace Keyspace

/-! ## Batches and feeds -/

/-- A batch as far as a span goes, if it goes anywhere there. -/
def Batch.within? (b : Batch) (span : Span) : Option Batch :=
  match b.events.filter fun e => span.contains e.record.key with
  | [] => none
  | events => some ⟨b.revision, events⟩

theorem Batch.within?_cases (b : Batch) (span : Span) :
    (b.within? span = none ∧ (b.events.filter fun e => span.contains e.record.key) = []) ∨
      b.within? span = some ⟨b.revision, b.events.filter fun e => span.contains e.record.key⟩ := by
  unfold within?
  split
  · rename_i h
    exact .inl ⟨rfl, h⟩
  · exact .inr rfl

theorem Batch.revision_of_within? {b d : Batch} {span : Span} (h : b.within? span = some d) :
    d.revision = b.revision := by
  rcases b.within?_cases span with ⟨hn, _⟩ | hs
  · rw [hn] at h
    cases h
  · rw [hs] at h
    cases h
    rfl

/-- What a span leaves of batches, by their revisions. -/
theorem Batch.filter_within? (span : Span) (p : Int → Bool) (bs : List Batch) :
    (bs.filterMap (·.within? span)).filter (p ·.revision) = (bs.filter (p ·.revision)).filterMap (·.within? span) := by
  induction bs with
  | nil => rfl
  | cons b bs ih =>
    rw [List.filterMap_cons, List.filter_cons]
    cases hb : b.within? span with
    | none =>
      rw [ih]
      split
      · rw [List.filterMap_cons, hb]
      · rfl
    | some d =>
      rw [List.filter_cons, revision_of_within? hb, ih]
      split
      · rw [List.filterMap_cons, hb]
      · rfl

def Feed.offerAll (f : Feed) (bs : List Batch) : Feed := bs.foldl Feed.offer f

theorem Feed.offer_eq (f : Feed) (b : Batch) :
    f.offer b = if f.live then { f with queue := f.queue ++ ((b.within? f.span).map .ok).toList } else f := by
  obtain ⟨id, span, live, queue⟩ := f
  unfold offer Feed.select Batch.within?
  simp only
  cases b.events.filter fun e => span.contains e.record.key with
  | nil => cases live <;> simp
  | cons e events => cases live <;> simp

theorem Feed.offerAll_of_live (bs : List Batch) : ∀ {f : Feed}, f.live = true →
    f.offerAll bs = { f with queue := f.queue ++ (bs.filterMap (·.within? f.span)).map .ok } := by
  induction bs with
  | nil => intro f h; simp [offerAll]
  | cons b bs ih =>
    intro f h
    have ho := f.offer_eq b
    rw [if_pos h] at ho
    have hlive : (f.offer b).live = true := by rw [ho]; exact h
    show (f.offer b).offerAll bs = _
    rw [ih hlive, ho, List.filterMap_cons]
    cases b.within? f.span <;> simp

theorem Feed.offerAll_of_not_live (bs : List Batch) {f : Feed} (h : f.live = false) : f.offerAll bs = f := by
  induction bs with
  | nil => rfl
  | cons b bs ih =>
    have ho := f.offer_eq b
    rw [if_neg (by simp [h])] at ho
    show (f.offer b).offerAll bs = f
    rw [ho, ih]

@[simp] theorem Feed.offerAll_id (f : Feed) (bs : List Batch) : (f.offerAll bs).id = f.id := by
  cases h : f.live with
  | true => rw [offerAll_of_live bs h]
  | false => rw [offerAll_of_not_live bs h]

namespace Store

variable {s s' s'' : Store} {bs bs' : List Batch}

/-! ## Appending -/

/-- The batches go to the end of the log and to the feeds, and feeds may be opened after. -/
structure Appends (s : Store) (bs : List Batch) (s' : Store) : Prop where
  log : s'.log = s.log ++ bs
  floor : s'.floor = s.floor
  nextFeed : s.nextFeed ≤ s'.nextFeed
  feeds : ∃ more : List Feed, s'.feeds = s.feeds.map (·.offerAll bs) ++ more ∧
    (∀ f ∈ more, s.nextFeed ≤ f.id ∧ f.id < s'.nextFeed) ∧ more.Pairwise fun f g => f.id ≠ g.id

theorem Appends.same (hl : s'.log = s.log) (hf : s'.floor = s.floor) (hn : s'.nextFeed = s.nextFeed)
    (hfeeds : s'.feeds = s.feeds) : s.Appends [] s' where
  log := by rw [hl, List.append_nil]
  floor := hf
  nextFeed := Nat.le_of_eq hn.symm
  feeds := ⟨[], by rw [hfeeds]; simp [Feed.offerAll], by simp, .nil⟩

theorem Appends.refl (s : Store) : s.Appends [] s := .same rfl rfl rfl rfl

theorem Appends.trans (h : s.Appends bs s') (h' : s'.Appends bs' s'') : s.Appends (bs ++ bs') s'' where
  log := by rw [h'.log, h.log, List.append_assoc]
  floor := h'.floor.trans h.floor
  nextFeed := Nat.le_trans h.nextFeed h'.nextFeed
  feeds := by
    obtain ⟨more, hm, hid, hp⟩ := h.feeds
    obtain ⟨more', hm', hid', hp'⟩ := h'.feeds
    have hn := h.nextFeed
    have hn' := h'.nextFeed
    refine ⟨more.map (·.offerAll bs') ++ more', ?_, fun f hf => ?_, List.pairwise_append.2 ⟨?_, hp', ?_⟩⟩
    · rw [hm', hm, List.map_append, List.map_map, List.append_assoc]
      congr 2
      funext f
      exact (List.foldl_append ..).symm
    · rcases List.mem_append.1 hf with hf | hf
      · obtain ⟨g, hg, rfl⟩ := List.mem_map.1 hf
        have := hid g hg
        rw [Feed.offerAll_id]
        exact ⟨this.1, Nat.lt_of_lt_of_le this.2 hn'⟩
      · have := hid' f hf
        exact ⟨Nat.le_trans hn this.1, this.2⟩
    · exact List.pairwise_map.2 (hp.imp fun hne => by rwa [Feed.offerAll_id, Feed.offerAll_id])
    · intro f hf g hg
      obtain ⟨d, hd, rfl⟩ := List.mem_map.1 hf
      rw [Feed.offerAll_id]
      exact Nat.ne_of_lt (Nat.lt_of_lt_of_le (hid d hd).2 (hid' g hg).1)

/-- Where nothing is compacted the log grows by what is committed. -/
theorem Advances.log_eq (ha : s.Advances bs s') (hs : s.Sound) (hf : s'.floor = s.floor) : s'.log = s.log ++ bs := by
  have hle := hs.floor_le
  rw [ha.log, hf]
  apply List.filter_eq_self.2
  intro b hb
  rcases List.mem_append.1 hb with hb | hb
  · simpa using (hs.logged b hb).1
  · obtain ⟨i, hi⟩ := List.mem_iff_getElem?.1 hb
    have := ha.numbered i b hi
    simp only [decide_eq_true_eq]
    omega

theorem Appends.advances {P : Event → Prop} (h : s.Appends bs s') (hs : s.Sound) (hl : s.Leads P s') :
    s.Advances bs s' := by
  obtain ⟨_, cs, ha, _⟩ := hl
  have hlog := ha.log_eq hs h.floor
  rw [h.log] at hlog
  rw [List.append_cancel_left hlog]
  exact ha

/-! ## Posting -/

/-- A way on which nothing is compacted, and no feed is taken from or closed. -/
def Posts (s s' : Store) : Prop := ∃ bs, s.Appends bs s'

theorem Posts.same (hl : s'.log = s.log) (hf : s'.floor = s.floor) (hn : s'.nextFeed = s.nextFeed)
    (hfeeds : s'.feeds = s.feeds) : s.Posts s' := ⟨[], .same hl hf hn hfeeds⟩

theorem Posts.refl (s : Store) : s.Posts s := ⟨[], .refl s⟩

theorem Posts.trans (h : s.Posts s') (h' : s'.Posts s'') : s.Posts s'' := by
  obtain ⟨bs, ha⟩ := h
  obtain ⟨bs', ha'⟩ := h'
  exact ⟨bs ++ bs', ha.trans ha'⟩

end Store

theorem Edit.Stands.appends {s : Store} {e : Edit} (h : e.Stands s) : s.Appends e.batches e.commit := by
  by_cases he : e.events = []
  · rw [commit_of_nil he, h.unchanged he, batches, if_pos (by simp [he])]
    exact .refl s
  have hc := h.commit_eq he
  rw [batches, if_neg (by simp [he])]
  refine ⟨?_, ?_, ?_, [], ?_, by simp, .nil⟩
  · rw [hc]
  · rw [hc]
  · exact Nat.le_of_eq (by rw [hc])
  · rw [hc, List.append_nil]
    rfl

namespace Store

variable {s s' s'' : Store}

theorem posts_revoke? (hs : s.Sound) {lease : Int} (hr : s.revoke? lease = some s') : s.Posts s' := by
  rw [revoke?_eq] at hr
  obtain ⟨l, _, rfl⟩ := Option.map_eq_some_iff.1 hr
  have he : s.Posts { s with leases := s.leases.erase lease } := .same rfl rfl rfl rfl
  exact he.trans ⟨_, (hs.stands_ending lease l).appends⟩

theorem posts_endAll (leases : List Int) : ∀ {s : Store}, s.Sound → s.Posts (s.endAll leases) := by
  induction leases with
  | nil => exact fun _ => .refl _
  | cons lease leases ih =>
    intro s hs
    rw [endAll_cons]
    cases hr : s.revoke? lease with
    | none => exact ih hs
    | some t => exact (posts_revoke? hs hr).trans (ih (leads_revoke? hs hr).1)

theorem appends_addFeed (s : Store) (span : Span) (live : Bool) (queue : List (Outcome Batch)) :
    s.Appends [] (s.addFeed span live queue).2 := by
  refine ⟨(List.append_nil _).symm, rfl, Nat.le_succ _, [⟨s.nextFeed, span, live, queue⟩], ?_, ?_, ?_⟩
  · simp [addFeed, Feed.offerAll]
  · simp [addFeed]
  · exact List.pairwise_singleton _ _

theorem appends_watch (s : Store) (span : Span) (start : Option Int) : s.Appends [] (s.watch span start).2 := by
  unfold watch
  split
  · exact appends_addFeed ..
  · split <;> exact appends_addFeed ..

theorem posts_commit? (hs : s.Sound) {ops : List Op} (hc : s.commit? ops = .ok s') : s.Posts s' := by
  obtain ⟨-, rfl⟩ := commit?_eq_ok hc
  exact ⟨_, (hs.stands_applyAll ops).appends⟩

theorem posts_moveLeader {member : Nat} (hm : s.moveLeader member = .ok s') : s.Posts s' := by
  unfold moveLeader at hm
  split at hm
  · cases hm
  · split at hm
    · cases hm
    · split at hm
      · cases hm
      · split at hm <;> cases hm
        · exact .refl s
        · exact .same rfl rfl rfl rfl

theorem posts_answer (hs : s.Sound) (now : Nat) (c : Call) : s.Posts (s.answer now c).2 := by
  have hx : s.Posts (s.expire now) := posts_endAll _ hs
  have hxs : (s.expire now).Sound := (leads_expire hs now).1
  cases c with
  | range span revision => exact hx
  | memberList => exact hx
  | endpointStatus endpoint => exact hx
  | put key value lease =>
    simp only [answer]
    split
    · exact hx
    · rename_i t hc
      exact hx.trans (posts_commit? hxs hc)
  | deleteRange span =>
    have hd : ((Edit.start (s.expire now)).delete span).Stands (s.expire now) :=
      .removeAll (fun lease hl => (hxs.leased lease hl).1) _ hxs.stands_start
    exact hx.trans ⟨_, hd.appends⟩
  | txn t =>
    simp only [answer]
    split
    · exact hx
    · rename_i t' hc
      exact hx.trans (posts_commit? hxs hc)
  | watch span start => exact hx.trans ⟨_, (s.expire now).appends_watch span start⟩
  | leaseGrant ttl =>
    simp only [answer]
    split
    · exact .refl s
    · exact hx.trans (.same rfl rfl rfl rfl)
  | leaseRevoke lease =>
    simp only [answer]
    split
    · exact hx
    · rename_i t hr
      exact hx.trans (posts_revoke? hxs hr)
  | moveLeader member =>
    simp only [answer]
    split
    · exact hx
    · rename_i t hm
      exact hx.trans (posts_moveLeader hm)

/-! ## Text -/

def Texts (s : Store) : Prop := ∀ k r, s.current k = some r → IsText k

/-- A way on which all is about text. -/
def Logs (s s' : Store) : Prop :=
  s'.Texts ∧ ∃ bs, s.Appends bs s' ∧ ∀ b ∈ bs, ∀ e ∈ b.events, IsText e.record.key

theorem Logs.same (ht : s.Texts) (hh : s'.histories = s.histories) (ha : s.Appends [] s') : s.Logs s' :=
  ⟨fun k r hr => ht k r (by unfold current at *; rwa [← hh]), [], ha, by simp⟩

theorem Logs.refl (ht : s.Texts) : s.Logs s := .same ht rfl (.refl s)

theorem Logs.trans (h : s.Logs s') (h' : s'.Logs s'') : s.Logs s'' := by
  obtain ⟨_, bs, ha, hb⟩ := h
  obtain ⟨ht', bs', ha', hb'⟩ := h'
  exact ⟨ht', bs ++ bs', ha.trans ha', fun b hm => (List.mem_append.1 hm).elim (hb b) (hb' b)⟩

end Store

def Op.Puts : Op → Bytes → Prop
  | .put key _ _, k => key = k
  | .delete _, _ => False

def Call.Puts : Call → Bytes → Prop
  | .put key _ _, k => key = k
  | .txn t, k => ∃ op, (op ∈ t.success ∨ op ∈ t.failure) ∧ op.Puts k
  | _, _ => False

namespace Edit

variable {s : Store} {e : Edit}

/-- All keys that are there and all that were written are text. -/
def Texts (e : Edit) : Prop := e.store.Texts ∧ ∀ ev ∈ e.events, IsText ev.record.key

theorem Texts.put (h : e.Texts) {key : Bytes} (hk : IsText key) (value : Bytes) (lease : Option Int) :
    (e.put key value lease).Texts := by
  refine ⟨fun k r hr => ?_, fun ev hev => ?_⟩
  · rw [current_put] at hr
    by_cases hkey : key = k
    · exact hkey ▸ hk
    · rw [if_neg hkey] at hr
      exact h.1 k r hr
  · rcases mem_events_put hev with hev | hev
    · exact h.2 ev hev
    · exact hev ▸ hk

theorem Texts.remove (h : e.Texts) (key : Bytes) : (e.remove key).Texts := by
  cases hc : e.store.current key with
  | none => rwa [remove_of_absent hc]
  | some r =>
    refine ⟨fun k x hx => ?_, fun ev hev => ?_⟩
    · rw [current_remove] at hx
      by_cases hkey : key = k
      · rw [if_pos hkey] at hx
        cases hx
      · rw [if_neg hkey] at hx
        exact h.1 k x hx
    · rcases mem_events_remove hev with hev | ⟨_, hev⟩
      · exact h.2 ev hev
      · exact hev ▸ h.1 key r hc

theorem Texts.removeAll (keys : List Bytes) : ∀ {e : Edit}, e.Texts → (keys.foldl Edit.remove e).Texts := by
  induction keys with
  | nil => exact fun h => h
  | cons key keys ih => exact fun h => ih (h.remove key)

theorem Texts.applyAll (ops : List Op) : ∀ {e : Edit}, e.Texts → (∀ op ∈ ops, ∀ k, op.Puts k → IsText k) →
    (e.applyAll ops).Texts := by
  induction ops with
  | nil => exact fun h _ => h
  | cons op ops ih =>
    intro e h hp
    refine ih ?_ fun o ho => hp o (List.mem_cons_of_mem _ ho)
    cases op with
    | put key value lease => exact h.put (hp _ List.mem_cons_self key rfl) value lease
    | delete span => exact h.removeAll _

theorem Stands.logs (h : e.Stands s) (ht : e.Texts) : s.Logs e.commit := by
  refine ⟨fun k r hr => ht.1 k r ?_, e.batches, h.appends, fun b hb ev hev => ?_⟩
  · unfold Store.current at *
    rwa [histories_commit] at hr
  · unfold batches at hb
    split at hb
    · cases hb
    · rw [List.mem_singleton.1 hb] at hev
      exact ht.2 ev hev

end Edit

namespace Store

variable {s s' : Store}

theorem Texts.start (ht : s.Texts) : (Edit.start s).Texts := ⟨ht, fun _ h => by cases h⟩

theorem logs_commit (hs : s.Sound) (ht : s.Texts) {ops : List Op} (hp : ∀ op ∈ ops, ∀ k, op.Puts k → IsText k) :
    s.Logs (s.commit ops) :=
  (hs.stands_applyAll ops).logs (.applyAll ops ht.start hp)

theorem logs_delete (hs : s.Sound) (ht : s.Texts) (span : Span) : s.Logs ((Edit.start s).delete span).commit :=
  Edit.Stands.logs (.removeAll (fun lease hl => (hs.leased lease hl).1) _ hs.stands_start) (.removeAll _ ht.start)

theorem logs_revoke? (hs : s.Sound) (ht : s.Texts) {lease : Int} (hr : s.revoke? lease = some s') : s.Logs s' := by
  rw [revoke?_eq] at hr
  obtain ⟨l, _, rfl⟩ := Option.map_eq_some_iff.1 hr
  have he : s.Logs { s with leases := s.leases.erase lease } := .same ht rfl (.same rfl rfl rfl rfl)
  exact he.trans ((hs.stands_ending lease l).logs (.removeAll _ he.1.start))

theorem logs_endAll (leases : List Int) : ∀ {s : Store}, s.Sound → s.Texts → s.Logs (s.endAll leases) := by
  induction leases with
  | nil => exact fun _ ht => .refl ht
  | cons lease leases ih =>
    intro s hs ht
    rw [endAll_cons]
    cases hr : s.revoke? lease with
    | none => exact ih hs ht
    | some t =>
      have hl := logs_revoke? hs ht hr
      exact hl.trans (ih (leads_revoke? hs hr).1 hl.1)

theorem logs_addFeed (ht : s.Texts) (span : Span) (live : Bool) (queue : List (Outcome Batch)) :
    s.Logs (s.addFeed span live queue).2 := .same ht rfl (s.appends_addFeed span live queue)

/-- Calls append what they commit, all of it about text if what they put is. -/
theorem logs_answer (hs : s.Sound) (ht : s.Texts) (now : Nat) {c : Call} (hp : ∀ k, c.Puts k → IsText k) :
    s.Logs (s.answer now c).2 := by
  have hx : s.Logs (s.expire now) := logs_endAll _ hs ht
  have hxs : (s.expire now).Sound := (leads_expire hs now).1
  cases c with
  | range span revision => exact hx
  | memberList => exact hx
  | endpointStatus endpoint => exact hx
  | put key value lease =>
    simp only [answer]
    split
    · exact hx
    · rename_i t hc
      obtain ⟨-, rfl⟩ := commit?_eq_ok hc
      refine hx.trans (logs_commit hxs hx.1 fun op ho k hk => ?_)
      rw [List.mem_singleton.1 ho] at hk
      exact hp k hk
  | deleteRange span => exact hx.trans (logs_delete hxs hx.1 span)
  | txn t =>
    simp only [answer]
    split
    · exact hx
    · rename_i t' hc
      obtain ⟨-, rfl⟩ := commit?_eq_ok hc
      refine hx.trans (logs_commit hxs hx.1 fun op ho k hk => hp k ⟨op, ?_, hk⟩)
      split at ho
      · exact .inl ho
      · exact .inr ho
  | watch span start =>
    apply hx.trans
    simp only [answer, watch]
    split
    · exact logs_addFeed hx.1 ..
    · split <;> exact logs_addFeed hx.1 ..
  | leaseGrant ttl =>
    simp only [answer]
    split
    · exact .refl ht
    · exact hx.trans (.same hx.1 rfl (.same rfl rfl rfl rfl))
  | leaseRevoke lease =>
    simp only [answer]
    split
    · exact hx
    · rename_i t hr
      exact hx.trans (logs_revoke? hxs hx.1 hr)
  | moveLeader member =>
    simp only [answer]
    split
    · exact hx
    · rename_i t hm
      apply hx.trans
      unfold moveLeader at hm
      split at hm
      · cases hm
      · split at hm
        · cases hm
        · split at hm
          · cases hm
          · split at hm <;> cases hm
            · exact .refl hx.1
            · exact .same hx.1 rfl (.same rfl rfl rfl rfl)

end Store

end Keyspace
