import Bc3Miner.Reference.Words

/-!
# The constants of the reference implementation

The arrays of `bc3hash/vendor/bc3/constants.hpp` that `mix512` reads, as numbers of their width.
-/

set_option autoImplicit false
set_option relaxedAutoImplicit false

namespace Bc3Miner.Reference

def base : List (UInt 1) := List.map UInt.hex [
  0xf70c6462eb2ae2d6, 0x927cb0e2c353f73e, 0xbf2f9516fc9c4330, 0xc15671f266593ff5,
  0x762c297f71890b5e, 0x108c447e7ebcd488, 0xc24818761058e50e, 0x36fd1f3c7fa624b2]

def round64 : List (UInt 1) := List.map UInt.hex [
  0x80b4847ee1d126d5, 0xc52a0d9a387a457b, 0x22e65c431bed21b2, 0x14667805c6955887,
  0xe17b3ee0aa3cf44e, 0xd2cd9d698d6a1671, 0xdb425c815c0704fe, 0x066c4ffd688e12a5,
  0x419215840b275a8c, 0x369230ade1d36976, 0x6bab679cb1b90894, 0x2c1c295d2e646b3b,
  0x3e59f4830d13644d, 0x1b0031adae0acaf8, 0x3796b541775d8e24, 0x2f3efa4806170292,
  0x16075331aa74e4e4, 0xdae9d5b3ec6cefed, 0x2820ef5c65f86f0b, 0x7588f2cff28b3fc5,
  0xa37049d63b598ca5, 0x3edd8b4d6ca62563, 0x43e59de592ba46a0, 0xcf164eec37b7f680,
  0xffeeebd5c0653331, 0xebf298d3d723ccda, 0xb2c336ac814e438d, 0xd0a3b74e43a31fb5,
  0x1a6309def1115850, 0x156d245c87623bed, 0x81971caeb07b6180, 0x08cd67e5ce559832]

def round128 : List (UInt 2) := List.map UInt.hex [
  0x72d2dabbaac34eefb446f99f1909aa84, 0xd15a623dd1654d61711549a20ca98933,
  0xf80af0b8c6f423c7c2399226e67a0018, 0x2be1771ab79765a405cc4bf907121fed,
  0x75ddc3d8e0566ca849a987a99529b720, 0x60826fc8e665ede7a1d91327ebdd2c4d,
  0xaf5f60a2275a84b45f7e14cdd2cb98b8, 0xa28ab2aa854ec5beb6a7e0025fb3c250,
  0x95481fcea93b34219680b307838b4544, 0xa1d6048ac9f8f6308da650a396026d41,
  0xf9556fbf52a88c1337448d77338dea6b, 0xead719a4044d895deba00bae9a3aa372,
  0xe6bc94f7926414a35dc6d29da087752f, 0xdc248964f9a21c16d9e1d13da4ef534c,
  0xee3ca1fb0e50d3f5e87b49495b47cfdd, 0x49b06366a722cff582a524368adf3893]

def round256 : List (UInt 4) := List.map UInt.hex [
  0x6111f39bfd11b164396410c3827e8d0a305580c292edc12637861eaa70b39a41,
  0xe1490e4bf73d5aea464535d0a21a31db5f0693792b60006b78c70bc875a9669a,
  0xfe00099f5049ad0ed1a5ba1b790d2374d7de1078d67685a5affc74849b7bb962,
  0xd1d70fddb21d577bcf7cd1d6d31f3f079037f4db5550af11ee761ec225206318,
  0xcf0e2c6afd6fadfb96caa96b03cd8242b0fe38675d26281bcd11d4fe89327b8f,
  0x3bdd3a3c74d68e63afe08dc41326e314d282b4ab122fce31df19dafcdd5bb1f0,
  0x351c9afb5cb7987b8a128eccabd57250dfbd4c541ceb948e29675e8674bbc2c4,
  0x0fb1b2ec6b8c8d10a8a181aa42a58c66f0b9328f0ba9cbd4456167a9a6a691ea,
  0xe38b86a71f2ae6d69763d26dcdcab4ff4a29260de0268f7060a6f3adc03159d4,
  0x14be1b97b838aca8c55cb557f99c60d89f8a6e614127b710f83a498bfecffb06,
  0x79c5d2a0e9c9c3d2e89ba2d35ffeada6207b6d170dc53239fb080b788e02f0e1,
  0x40c94e657e14192db7c03690e3234b468f05d8e3a804bc8957b9e4e324f2b1bb,
  0x474cd214da0634afffd351652d7d731649d9fa3b78cd94b81138790ee09cd03b,
  0x900ebe45b91037f8a0445bc6296f9bbc66daf436f0f55fae12e40443ebc81f63,
  0x5aef38a1b25c2be9023e1571bb8d4fa3e839b455dd7b5fd46654e39eedc737e1,
  0x73949255913776de1b80fd175ae409fd459daab2788d2031dbabd97368b8a187]

def final : List (UInt 4) := List.map UInt.hex [
  0x9955b67ba23081f7cf6ba04a683d7a60d95a85dfc873ac54817083395555c30f,
  0x99784555ee242dfda0a54813a9d3ea9dceef42e7fa66331f4651c0dce4e415c5,
  0x170f26673e7dbb0a84c0636bf6818ffb4e362ea94f962c31baa8ebfecbf90b46,
  0x07aa11fa2a5fcfee178921653f63d8d251f91ea5843f1e8316c48f46b4f733fc,
  0xd735370d48bfdcce3975e3b82d679f5f9a2f60d493f872c93b7176a8440fbb27,
  0xd899501de756bcb135864c083059205e23c8b930c24ab5613e722447a516b4c9,
  0x180e6ad999dd9db2cbbc6a933900dacd71874f942d6eb59fb012027930f5ab63,
  0xdcb0af221294f003e53869e7ce97778f61033b4fe9244710ee639bc6dd332995,
  0x912a7b68f34f6eee00c5c514e05a2f81362deef1f1c0ba8d5906bfd8ad93e48a,
  0xf5befb974f5feb7df8c31b7e33458a4476d17a95f7e7d29a80991ddb2c3b113a,
  0xf1313f1399472a6f5ccdfdfd712c421bc2d35daf57dbcada64ae619444ed9fe8,
  0x68877600cbbaff5052bf81f3a739e3966480fdefa405b9f6c99f669e768f23ea,
  0x673f37f85f3b2f13890645bf615e27c058390731d6a3b913d890bb67328fdf7f,
  0x0650a4eca8b60dacc0772ed24b553f10f39b9e5197060f27eb0e5619f25c48a6,
  0x3731b934e38497146c661d95765377fe3caeb76d0615e5d52a868b7a9f434519,
  0x101d01fe3f98e74b7775842bab918482b3bfef97dccb5bd2771aa47493332e30,
  0x4ae24cc98f987ef675f4d19ee9215fcc59ed4354c04ee809143ac89dfe80eab6,
  0x4c9356eba43c4324498969c35a4b8cc65207cad331ea1de1d89e4848e896d1b6,
  0xbbbdd512ae282ccad19c79d0fa8f32695a1a6eb16dd70d6f80fce2f269aeaef4,
  0x32828e0b7e350cf8b5ebf69f31961744b0a69d436d746990b7005ecd7a1d5c1b,
  0x755820e7ff97314683be5b9af0657182678aeea88c1ed974ec8afde7284bc232,
  0x1c82c1614ebf98ac2abc0943fdb61c4586b1b3ad728fccc270b3978e5901b6a0,
  0x4a30eeef58c74af4bde528cffd3eebb273dd3171e403304fa9c3d061fa3df727,
  0x4ea5259761fe70b5ddc0054536cb2ede56acf773f839b3f5a110a69caf6fb820,
  0x6da17ae5e890f07a827dfbd303eca5f2d51be7f84b164ae337df9a34c054fcf6,
  0xafd1dc3c5ea819070f54ccf511035d2d153585c78ab82ac1e418212ddff2d318,
  0x5590f6b776f76817ef7bf20247c0fc1c93de10ef5eae66c84f7938a15b6374a4,
  0xa1357f946b693c2f5efde95b19694c309344e69a351acc5755dbfe0727d6e5f5,
  0x4e38c422f62b5823a8441df79eb8fbd2b9c2b941aa464b02b437b1cd798dd2f2,
  0xee939c7637580417240cb209683469b9c349f4c32d679fc5cbb9a8c91faec809,
  0xcd9879979778216e7da34fefe118b158ce919488b37d1627086b80cdfed83435,
  0x7fc58ed8b6f4b34bed803a6996e7dae55a45e98cb3c17adff95c27f9e489a029,
  0x3710e04efbd62c6d4a22305be4a5c246a1eebae3675b0ec6585de1ae6fc3441d,
  0xf1cd05d64625d55f417561bead79891cf55b8de6dcdc7351bd71610480d26760,
  0x273cc20d22bae5446e3cdf7dafbd8ae69ebcbeb575f472e24754d1054703346e,
  0xfb85f5fa5dfcf868eabab1c45a45a615a89ee2553cc127039b9b7fcf81630a72,
  0x76d12280182f5e0093772851d0a7b22b63375462b0df01d585c885725555a6a0,
  0xaf0c661b32eb31b44634344f6e8a031d3370cc67f7408465e888e8e8a61c2841,
  0xa7a23205110615751304b17927b2dfcb53e509d0f32aeb553757cdcb26d95c2c,
  0xd387d84911209f0d5be4561a5f229a188b596ca1416854443ecc8f7495140f28,
  0x1563bfdefacc80b131c69fa0540a4aec32b504d96136384d5e66560bf72e1a5f,
  0xe1f77bb83abe2e45ae0070ee2f6afb3a1f805827a347ea9d172c9c5613a717eb,
  0x3f97105dc086f1d11646e12c209284c7e7580352e5c95776fb1fe0f95b210f80,
  0x2db485e568750050b6b2c089f87fa9f6da82b466840704284e1d420a8b183fbd,
  0x405fff4a93c4f70fff3b2fce537e028ab8279822c219eec50ac96805e1e334a7,
  0xa901c8e4585ed7574ffb42e3c3f2099ebdb957c4d7659545661cbe2703641379,
  0x0e5b32c400c04bae0001a0f2e798b51c8e9472e15d4413bd4cabcc116b5d19ad,
  0x26446d2b4cfa5b7b0b556e145fa979a1d0cb3f0ad7eea67d290b6cf63894f77b,
  0xe42fb0dd2e00b32fd0f8c452ed4747afc078c4efc627b530d98e63688809a927,
  0x388b5e4c9933b60072dc31f9827929ac9bf2f9c7a55922245751cc98b1812ebc,
  0x8437e139f1a563acf5a32e8628e3612733abd57d1fccb4f646a96722fc856d15,
  0x5a8ec26dffa90c5d52c82ccd0bfd2dabfe1245392c2940e40f1b47ab2c1bb213,
  0x49a7d025205daca78879172903cf32368ba684b4fc24483f7b2923f08ce3c5ba,
  0x1a689e0246346b2ec3b2ef06d2cdffe332422cc5a16f71acf6e267857aacea89,
  0xeaaab1036f1190119de97718e6cb3629bffaa5e9f9b857f4be82aa7ee027adc1,
  0x4967e0525cf1f05035b4884bc6e3aa8efa3d55e4260034028bc731fe9c5e954b,
  0x60be27cc1bb8fdc10b0d62835ce112a93fe3c4f2723e8938f9651571f3e4df9e,
  0xc3c09a1a2af40fcc2810de3c1cd36bdf0653ae9e3125479ea03d6d8b8b021999,
  0x930873d43406c3991fa26f5be2a4f2580d8c75a7e1196c9ed962e9576c6a2ef1,
  0xe969ccbf6d73649e494f1e91ff17f2f150bcd2d7d6509bc7a21027269105a62e,
  0xed69c264a65d792056e24a3016f6addf035949c07b738144c3e22109f6a96e98,
  0xf40f828787f7af6bf721cbe37c81042ba45a8e51d4bb911059c6040b58498838,
  0xa85f0ba124516696cf20ee66047fb0844778f53847660432aa75827ad27b2e72,
  0x07725b2a7c500486d866934046e7fe7b87c0dc112fde6941afa82a2ead66dad2]

end Bc3Miner.Reference
