import SolanaM.Earn.Configuration
import SolanaM.Sdk.EvmCaller
import SolanaM.Sdk.ProofPosition

namespace SolanaM.Services

open Earn Sdk HashTree

/-- The command throws an error of its own, of the tree or of a library, or finds no account. -/
inductive CommandError
  | thrown (message : String)
  | library (e : ValidationError)
  | accountNotFound
  deriving DecidableEq

/-- The keys and the network of the environment, the Ethereum client, and what the libraries derive
from an address: the key it spells and the vault of an extension program. -/
structure Cli where
  payer : Key
  mint : Key
  network : Option String
  evmClient : String → MerkleTreeContract
  decodeAddress : String → Option Key
  mVault : Key → Key

namespace Cli

variable {M : Type} (P : Program Key M) (cli : Cli)

def evmCaller : EvmCaller where
  contracts := cli.evmClient
  merkleTreeAddress :=
    if cli.network=some "devnet" then ETH_MERKLE_TREE_BUILDER_DEVNET else ETH_MERKLE_TREE_BUILDER

/-- The earner that the argument names, or the vault of the extension it names. -/
def earner (earnerAddress : String) (extension : Bool) : Option Key :=
  (cli.decodeAddress earnerAddress).map fun key => if extension then cli.mVault key else key

/-- The transaction that the add-registrar-earner command sends, as far as it gets there. Anchor
fills in the global account and, from it, the mint. -/
def addRegistrarEarner (s : Chain Key M) (earnerAddress : String) (extension : Bool) :
    Except CommandError (Action Key) := do
  let earner ← (present (cli.earner earnerAddress extension) .publicKey).mapError .library
  let earnerATA := P.associatedToken earner cli.mint
  let earners ← cli.evmCaller.getEarners.mapError .library
  match s.globalAccount with
  | none => .error .accountNotFound
  | some global =>
    let expectedRoot := cli.evmCaller.getMerkleRoot .earners
    let root := hexWord global.earnerMerkleRoot
    if root≠expectedRoot then
      .error (.thrown ("Root mismatch: expected "++expectedRoot++", got "++root))
    else do
      let tree := MerkleTree.new P.keccak earners
      let proof ← (tree.getInclusionProof P.keccak earner false).mapError .thrown
      .ok (.addRegistrarEarner ⟨cli.payer,P.globalAddress,global.mMint,earnerATA⟩ earner proof)

/-- What the contract is relied on for: it lists different words, and its root is that of the tree
the SDK builds over them. -/
structure Lists (leaves : List PublicKey) (r : Key) : Prop where
  earners : cli.evmCaller.getEarners=.ok leaves
  distinct : (leaves.map PublicKey.bytes).Nodup
  root : cli.evmCaller.getMerkleRoot .earners=hexWord r
  built : (MerkleTree.new P.keccak leaves).getRoot=some r

variable {P cli} {s : Chain Key M} {g : EarnGlobal Key} {earnerAddress : String}
  {extension : Bool} {key : Key} {leaves : List PublicKey} {r : Key}

/-- A contract that answers with the words of different keys and with the word of their root is
relied on as it should be. -/
theorem Lists.of_words {keys : List Key}
    (hlist : cli.evmCaller.getMerkleContract.getList (RegistrarList.name .earners)=
      keys.map hexWord)
    (hnodup : keys.Nodup) (hroot : cli.evmCaller.getMerkleRoot .earners=hexWord r)
    (hbuilt : (MerkleTree.new P.keccak (newKeys 1 keys)).getRoot=some r) :
    Lists P cli (newKeys 1 keys) r where
  earners := by
    rw [EvmCaller.getEarners,EvmCaller.getList,hlist]
    exact EvmCaller.publicKeys_words keys 1
  distinct := by rwa [newKeys_bytes]
  root := hroot
  built := hbuilt

/-- Behind the argument, the list and the stored account, the roots are compared first. -/
theorem addRegistrarEarner_eq (hkey : cli.earner earnerAddress extension=some key)
    (hl : Lists P cli leaves r) (hg : s.globalAccount=some g) :
    addRegistrarEarner P cli s earnerAddress extension=
      if g.earnerMerkleRoot≠r then
        .error (.thrown ("Root mismatch: expected "++hexWord r++", got "++
          hexWord g.earnerMerkleRoot))
      else
        (((MerkleTree.new P.keccak leaves).getInclusionProof P.keccak key false).mapError
          .thrown).map fun proof => .addRegistrarEarner
            ⟨cli.payer,P.globalAddress,g.mMint,P.associatedToken key cli.mint⟩ key proof := by
  have hroot : (hexWord g.earnerMerkleRoot≠hexWord r) ↔ g.earnerMerkleRoot≠r :=
    hexWord_injective.ne_iff
  simp only [addRegistrarEarner,hkey,present,hl.earners,hl.root,hg,Except.mapError,bind,Except.bind]
  by_cases h : g.earnerMerkleRoot≠r
  · rw [if_pos (hroot.mpr h),if_pos h]
  · rw [if_neg (fun hn => h (hroot.mp hn)),if_neg h]
    cases (MerkleTree.new P.keccak leaves).getInclusionProof P.keccak key false <;> rfl

/-- The tree over no keys holds the zero key. -/
theorem getInclusionProof_unlisted (hmem : key∉leaves.map PublicKey.bytes)
    (hz : leaves=[] → key≠Key.zero) :
    (MerkleTree.new P.keccak leaves).getInclusionProof P.keccak key false=
      .error "Leaf not found in the tree" := by
  have hindex : (MerkleTree.new P.keccak leaves).getLeafIndex key=none := by
    by_cases hne : leaves=[]
    · subst hne
      have hempty : MerkleTree.new P.keccak []=MerkleTree.ofSorted P.keccak [Key.zero] :=
        MerkleTree.new_eq_ofSorted P.keccak [PublicKey.default] (by decide)
      rw [hempty]
      apply List.idxOf?_eq_none_iff.mpr
      intro hm
      exact hz rfl (List.mem_singleton.mp hm)
    · rw [MerkleTree.new_eq_ofSorted P.keccak leaves hne]
      apply List.idxOf?_eq_none_iff.mpr
      intro hm
      exact hmem ((MerkleTree.mem_constructorKeys leaves key).mp hm)
  rw [MerkleTree.getInclusionProof,hindex]

/-- A listed key has a proof that the program accepts under the root of the list. -/
theorem getInclusionProof_listed (hl : Lists P cli leaves r) (hlen : leaves.length<2^63)
    (hmem : key∈leaves.map PublicKey.bytes) :
    ∃ proof,(MerkleTree.new P.keccak leaves).getInclusionProof P.keccak key false=.ok proof ∧
      ∃ i,verifyInTree P.keccak r key proof=.ok i := by
  have hne : leaves≠[] := by
    rintro rfl
    exact nomatch hmem
  have harr := MerkleTree.constructorKeys_arranged hl.distinct
  have hbuilt := hl.built
  rw [MerkleTree.new_eq_ofSorted P.keccak leaves hne] at hbuilt ⊢
  obtain ⟨i,hi⟩ := List.mem_iff_getElem?.mp (harr.perm.mem_iff.mpr hmem)
  obtain ⟨proof,hproof,hheight,hclimb,_⟩ := MerkleTree.getInclusionProof_spec P.keccak
    (MerkleTree.constructorKeys leaves) harr.nodup i key hi false r hbuilt
  have hclog : Nat.clog 2 (MerkleTree.constructorKeys leaves).length<64 := by
    rw [harr.length_eq]
    exact Nat.lt_succ_of_le (Nat.clog_le_of_le_pow hlen.le)
  have hindex : pathIndex proof<2^64 := by
    apply (pathIndex_lt proof).trans
    exact Nat.pow_lt_pow_right (by decide) (hheight ▸ hclog)
  refine ⟨proof,hproof,pathIndex proof,?_⟩
  rw [verifyInTree_eq P.keccak r key proof (by omega),if_pos hindex,if_pos hclimb]

end Cli

/-- In every reachable state: add-registrar-earner sends nothing unless the stored root is the
registrar's and the earner is on its list, and then the program accepts what it sends exactly when
the associated account is a frozen $M account with the earner for its immutable owner. -/
theorem addRegistrarEarner_accepted {M : Type} [LinearOrder M] {P : Program Key M} {cli : Cli}
    {leaves : List PublicKey} {r : Key} (hl : cli.Lists P leaves r) (hlen : leaves.length<2^63)
    {s0 s : Chain Key M} {ctx : Initialize} {currentIndex : Nat}
    (hinit : Initialize.handler P s0 ctx currentIndex=.ok s) (as : List (Action Key))
    {earnerAddress : String} {extension : Bool} {key : Key}
    (hkey : cli.earner earnerAddress extension=some key) :
    ∃ g,((program P).run s as).globalAccount=some g ∧ g.mMint=ctx.mMint ∧
      (g.earnerMerkleRoot≠r →
        cli.addRegistrarEarner P ((program P).run s as) earnerAddress extension=
          .error (.thrown ("Root mismatch: expected "++hexWord r++", got "++
            hexWord g.earnerMerkleRoot))) ∧
      (g.earnerMerkleRoot=r → key∉leaves.map PublicKey.bytes → (leaves=[] → key≠Key.zero) →
        cli.addRegistrarEarner P ((program P).run s as) earnerAddress extension=
          .error (.thrown "Leaf not found in the tree")) ∧
      (g.earnerMerkleRoot=r → key∈leaves.map PublicKey.bytes →
        ∃ a,cli.addRegistrarEarner P ((program P).run s as) earnerAddress extension=.ok a ∧
          ∀ s' es,(program P).step ((program P).run s as) a=.ok (s',es) ↔
            ∃ acc,((program P).run s as).accounts (P.associatedToken key cli.mint)=some acc ∧
              acc.mint=ctx.mMint ∧ acc.owner=key ∧ acc.immutableOwner ∧ acc.state=.Frozen ∧
              key≠Key.zero ∧ es=[] ∧ s'=((program P).run s as).setAccount (P.associatedToken key cli.mint)
                {acc with state := .Initialized}) := by
  obtain ⟨g,hg,hconfigured⟩ := run_global (Initialize.handler_eq_ok hinit).global as
  obtain ⟨g',hg',hfreezable⟩ := (Controls.of_initialize hinit).run as
  cases hg.symm.trans hg'
  have hmint : g.mMint=ctx.mMint := hconfigured.mMint
  have hcommand := Cli.addRegistrarEarner_eq hkey hl hg
  refine ⟨g,hg,hmint,?_,?_,?_⟩
  · intro hroot
    rw [hcommand,if_pos hroot]
  · intro hroot hmem hz
    rw [hcommand,if_neg (not_not.mpr hroot),Cli.getInclusionProof_unlisted hmem hz]
    rfl
  · intro hroot hmem
    obtain ⟨proof,hproof,hverified⟩ := Cli.getInclusionProof_listed hl hlen hmem
    refine ⟨.addRegistrarEarner ⟨cli.payer,P.globalAddress,g.mMint,
      P.associatedToken key cli.mint⟩ key proof,?_,?_⟩
    · rw [hcommand,if_neg (not_not.mpr hroot),hproof]
      rfl
    · intro s' es
      show silent (AddRegistrarEarner.handler P _ _ key proof)=.ok (s',es) ↔ _
      rw [silent_eq_ok,AddRegistrarEarner.handler_eq_ok]
      constructor
      · rintro ⟨⟨g',acc,h,rfl⟩,rfl⟩
        cases hg.symm.trans h.global
        exact ⟨acc,h.account,h.accountMint.trans hmint,h.owner,h.immutableOwner,h.frozen,
          h.owner ▸ h.user_ne_zero,rfl,rfl⟩
      · rintro ⟨acc,hacc,hm,ho,him,hst,hz,rfl,rfl⟩
        refine ⟨⟨g,acc,⟨⟨hg,hacc,rfl,rfl,hm.trans hmint.symm,hfreezable⟩,ho,him,hst,hz,?_⟩,rfl⟩,rfl⟩
        rw [hroot]
        exact hverified

section Sample

/-- The hash of a node is its left child: no proof of the command rests on collisions. -/
def sampleKeyProgram : Program Key Nat where
  keccak := ⟨id,fun a _ => a⟩
  zeroRoot := Key.zero
  indexToMultiplier := id
  globalAddress := .ofByte 1
  portalTokenAuthority := .ofByte 2
  extSwapGlobal := .ofByte 3
  associatedToken owner _ :=
    if owner=.ofByte 2 then .ofByte 4 else if owner=.ofByte 3 then .ofByte 5 else .ofByte 7
  testing := false

def sampleKeyChain : Chain Key Nat where
  globalAccount := none
  mints key :=
    if key=.ofByte 6 then
      some ⟨6,5,some (.ofByte 1),some ⟨.ofByte 1,0⟩,some .Frozen,some (.ofByte 1)⟩
    else none
  accounts key := if key=.ofByte 7 then some ⟨.ofByte 6,.ofByte 8,5,.Frozen,true⟩ else none

def sampleKeyStart : Chain Key Nat :=
  (program sampleKeyProgram).exec sampleKeyChain (.initializeProgram sampleInitialize 1)

def sampleCli : Cli where
  payer := .ofByte 12
  mint := .ofByte 6
  network := none
  evmClient _ := ⟨fun _ => hexWord (.ofByte 8),fun _ => [hexWord (.ofByte 8)]⟩
  decodeAddress _ := some (.ofByte 8)
  mVault := id

theorem addRegistrarEarner_accepted_sample :
    ∃ a s',sampleCli.addRegistrarEarner sampleKeyProgram
        ((program sampleKeyProgram).run sampleKeyStart
          [.propagateIndex ⟨.ofByte 2,.ofByte 1,.ofByte 6⟩ 2 (.ofByte 8) 0]) "" false=.ok a ∧
      (program sampleKeyProgram).step ((program sampleKeyProgram).run sampleKeyStart
        [.propagateIndex ⟨.ofByte 2,.ofByte 1,.ofByte 6⟩ 2 (.ofByte 8) 0]) a=.ok (s',[]) := by
  have hlists : sampleCli.Lists sampleKeyProgram (newKeys 1 [.ofByte 8]) (.ofByte 8) :=
    .of_words rfl (List.nodup_singleton _) rfl rfl
  have hinit : Initialize.handler sampleKeyProgram sampleKeyChain sampleInitialize 1=
      .ok sampleKeyStart := rfl
  have hkey : sampleCli.earner "" false=some (.ofByte 8) := rfl
  obtain ⟨g,hg,_,_,_,h⟩ := addRegistrarEarner_accepted hlists (by decide) hinit
    [.propagateIndex ⟨.ofByte 2,.ofByte 1,.ofByte 6⟩ 2 (.ofByte 8) 0] hkey
  cases hg
  obtain ⟨a,ha,hstep⟩ := h rfl (by decide)
  exact ⟨a,_,ha,(hstep _ _).mpr ⟨_,rfl,rfl,rfl,rfl,rfl,by decide,rfl,rfl⟩⟩

end Sample

end SolanaM.Services
