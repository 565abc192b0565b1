import Mathlib.Data.UInt

/-!
# The constants of the kernel

The arrays of `src/kernels/bc3hash.cl` that BC3Mix reads, in words of 64 bits: numbers of more limbs
stand with the least significant limb first.

They are data; that they are the reference's is a check of tables in `Mix`.
-/

set_option autoImplicit false
set_option relaxedAutoImplicit false

namespace Bc3Miner.Kernel

def bc3Base : List UInt64 := [
  0xf70c6462eb2ae2d6, 0x927cb0e2c353f73e, 0xbf2f9516fc9c4330, 0xc15671f266593ff5,
  0x762c297f71890b5e, 0x108c447e7ebcd488, 0xc24818761058e50e, 0x36fd1f3c7fa624b2]

def bc3Round64 : List UInt64 := [
  0x80b4847ee1d126d5, 0xc52a0d9a387a457b, 0x22e65c431bed21b2, 0x14667805c6955887,
  0xe17b3ee0aa3cf44e, 0xd2cd9d698d6a1671, 0xdb425c815c0704fe, 0x066c4ffd688e12a5,
  0x419215840b275a8c, 0x369230ade1d36976, 0x6bab679cb1b90894, 0x2c1c295d2e646b3b,
  0x3e59f4830d13644d, 0x1b0031adae0acaf8, 0x3796b541775d8e24, 0x2f3efa4806170292,
  0x16075331aa74e4e4, 0xdae9d5b3ec6cefed, 0x2820ef5c65f86f0b, 0x7588f2cff28b3fc5,
  0xa37049d63b598ca5, 0x3edd8b4d6ca62563, 0x43e59de592ba46a0, 0xcf164eec37b7f680,
  0xffeeebd5c0653331, 0xebf298d3d723ccda, 0xb2c336ac814e438d, 0xd0a3b74e43a31fb5,
  0x1a6309def1115850, 0x156d245c87623bed, 0x81971caeb07b6180, 0x08cd67e5ce559832]

/-- Two words a round. -/
def bc3Round128 : List UInt64 := [
  0xb446f99f1909aa84, 0x72d2dabbaac34eef, 0x711549a20ca98933, 0xd15a623dd1654d61,
  0xc2399226e67a0018, 0xf80af0b8c6f423c7, 0x05cc4bf907121fed, 0x2be1771ab79765a4,
  0x49a987a99529b720, 0x75ddc3d8e0566ca8, 0xa1d91327ebdd2c4d, 0x60826fc8e665ede7,
  0x5f7e14cdd2cb98b8, 0xaf5f60a2275a84b4, 0xb6a7e0025fb3c250, 0xa28ab2aa854ec5be,
  0x9680b307838b4544, 0x95481fcea93b3421, 0x8da650a396026d41, 0xa1d6048ac9f8f630,
  0x37448d77338dea6b, 0xf9556fbf52a88c13, 0xeba00bae9a3aa372, 0xead719a4044d895d,
  0x5dc6d29da087752f, 0xe6bc94f7926414a3, 0xd9e1d13da4ef534c, 0xdc248964f9a21c16,
  0xe87b49495b47cfdd, 0xee3ca1fb0e50d3f5, 0x82a524368adf3893, 0x49b06366a722cff5]

/-- Four words a round. -/
def bc3Round256 : List UInt64 := [
  0x37861eaa70b39a41, 0x305580c292edc126, 0x396410c3827e8d0a, 0x6111f39bfd11b164,
  0x78c70bc875a9669a, 0x5f0693792b60006b, 0x464535d0a21a31db, 0xe1490e4bf73d5aea,
  0xaffc74849b7bb962, 0xd7de1078d67685a5, 0xd1a5ba1b790d2374, 0xfe00099f5049ad0e,
  0xee761ec225206318, 0x9037f4db5550af11, 0xcf7cd1d6d31f3f07, 0xd1d70fddb21d577b,
  0xcd11d4fe89327b8f, 0xb0fe38675d26281b, 0x96caa96b03cd8242, 0xcf0e2c6afd6fadfb,
  0xdf19dafcdd5bb1f0, 0xd282b4ab122fce31, 0xafe08dc41326e314, 0x3bdd3a3c74d68e63,
  0x29675e8674bbc2c4, 0xdfbd4c541ceb948e, 0x8a128eccabd57250, 0x351c9afb5cb7987b,
  0x456167a9a6a691ea, 0xf0b9328f0ba9cbd4, 0xa8a181aa42a58c66, 0x0fb1b2ec6b8c8d10,
  0x60a6f3adc03159d4, 0x4a29260de0268f70, 0x9763d26dcdcab4ff, 0xe38b86a71f2ae6d6,
  0xf83a498bfecffb06, 0x9f8a6e614127b710, 0xc55cb557f99c60d8, 0x14be1b97b838aca8,
  0xfb080b788e02f0e1, 0x207b6d170dc53239, 0xe89ba2d35ffeada6, 0x79c5d2a0e9c9c3d2,
  0x57b9e4e324f2b1bb, 0x8f05d8e3a804bc89, 0xb7c03690e3234b46, 0x40c94e657e14192d,
  0x1138790ee09cd03b, 0x49d9fa3b78cd94b8, 0xffd351652d7d7316, 0x474cd214da0634af,
  0x12e40443ebc81f63, 0x66daf436f0f55fae, 0xa0445bc6296f9bbc, 0x900ebe45b91037f8,
  0x6654e39eedc737e1, 0xe839b455dd7b5fd4, 0x023e1571bb8d4fa3, 0x5aef38a1b25c2be9,
  0xdbabd97368b8a187, 0x459daab2788d2031, 0x1b80fd175ae409fd, 0x73949255913776de]

/-- Four words a round. -/
def bc3Final : List UInt64 := [
  0x817083395555c30f, 0xd95a85dfc873ac54, 0xcf6ba04a683d7a60, 0x9955b67ba23081f7,
  0x4651c0dce4e415c5, 0xceef42e7fa66331f, 0xa0a54813a9d3ea9d, 0x99784555ee242dfd,
  0xbaa8ebfecbf90b46, 0x4e362ea94f962c31, 0x84c0636bf6818ffb, 0x170f26673e7dbb0a,
  0x16c48f46b4f733fc, 0x51f91ea5843f1e83, 0x178921653f63d8d2, 0x07aa11fa2a5fcfee,
  0x3b7176a8440fbb27, 0x9a2f60d493f872c9, 0x3975e3b82d679f5f, 0xd735370d48bfdcce,
  0x3e722447a516b4c9, 0x23c8b930c24ab561, 0x35864c083059205e, 0xd899501de756bcb1,
  0xb012027930f5ab63, 0x71874f942d6eb59f, 0xcbbc6a933900dacd, 0x180e6ad999dd9db2,
  0xee639bc6dd332995, 0x61033b4fe9244710, 0xe53869e7ce97778f, 0xdcb0af221294f003,
  0x5906bfd8ad93e48a, 0x362deef1f1c0ba8d, 0x00c5c514e05a2f81, 0x912a7b68f34f6eee,
  0x80991ddb2c3b113a, 0x76d17a95f7e7d29a, 0xf8c31b7e33458a44, 0xf5befb974f5feb7d,
  0x64ae619444ed9fe8, 0xc2d35daf57dbcada, 0x5ccdfdfd712c421b, 0xf1313f1399472a6f,
  0xc99f669e768f23ea, 0x6480fdefa405b9f6, 0x52bf81f3a739e396, 0x68877600cbbaff50,
  0xd890bb67328fdf7f, 0x58390731d6a3b913, 0x890645bf615e27c0, 0x673f37f85f3b2f13,
  0xeb0e5619f25c48a6, 0xf39b9e5197060f27, 0xc0772ed24b553f10, 0x0650a4eca8b60dac,
  0x2a868b7a9f434519, 0x3caeb76d0615e5d5, 0x6c661d95765377fe, 0x3731b934e3849714,
  0x771aa47493332e30, 0xb3bfef97dccb5bd2, 0x7775842bab918482, 0x101d01fe3f98e74b,
  0x143ac89dfe80eab6, 0x59ed4354c04ee809, 0x75f4d19ee9215fcc, 0x4ae24cc98f987ef6,
  0xd89e4848e896d1b6, 0x5207cad331ea1de1, 0x498969c35a4b8cc6, 0x4c9356eba43c4324,
  0x80fce2f269aeaef4, 0x5a1a6eb16dd70d6f, 0xd19c79d0fa8f3269, 0xbbbdd512ae282cca,
  0xb7005ecd7a1d5c1b, 0xb0a69d436d746990, 0xb5ebf69f31961744, 0x32828e0b7e350cf8,
  0xec8afde7284bc232, 0x678aeea88c1ed974, 0x83be5b9af0657182, 0x755820e7ff973146,
  0x70b3978e5901b6a0, 0x86b1b3ad728fccc2, 0x2abc0943fdb61c45, 0x1c82c1614ebf98ac,
  0xa9c3d061fa3df727, 0x73dd3171e403304f, 0xbde528cffd3eebb2, 0x4a30eeef58c74af4,
  0xa110a69caf6fb820, 0x56acf773f839b3f5, 0xddc0054536cb2ede, 0x4ea5259761fe70b5,
  0x37df9a34c054fcf6, 0xd51be7f84b164ae3, 0x827dfbd303eca5f2, 0x6da17ae5e890f07a,
  0xe418212ddff2d318, 0x153585c78ab82ac1, 0x0f54ccf511035d2d, 0xafd1dc3c5ea81907,
  0x4f7938a15b6374a4, 0x93de10ef5eae66c8, 0xef7bf20247c0fc1c, 0x5590f6b776f76817,
  0x55dbfe0727d6e5f5, 0x9344e69a351acc57, 0x5efde95b19694c30, 0xa1357f946b693c2f,
  0xb437b1cd798dd2f2, 0xb9c2b941aa464b02, 0xa8441df79eb8fbd2, 0x4e38c422f62b5823,
  0xcbb9a8c91faec809, 0xc349f4c32d679fc5, 0x240cb209683469b9, 0xee939c7637580417,
  0x086b80cdfed83435, 0xce919488b37d1627, 0x7da34fefe118b158, 0xcd9879979778216e,
  0xf95c27f9e489a029, 0x5a45e98cb3c17adf, 0xed803a6996e7dae5, 0x7fc58ed8b6f4b34b,
  0x585de1ae6fc3441d, 0xa1eebae3675b0ec6, 0x4a22305be4a5c246, 0x3710e04efbd62c6d,
  0xbd71610480d26760, 0xf55b8de6dcdc7351, 0x417561bead79891c, 0xf1cd05d64625d55f,
  0x4754d1054703346e, 0x9ebcbeb575f472e2, 0x6e3cdf7dafbd8ae6, 0x273cc20d22bae544,
  0x9b9b7fcf81630a72, 0xa89ee2553cc12703, 0xeabab1c45a45a615, 0xfb85f5fa5dfcf868,
  0x85c885725555a6a0, 0x63375462b0df01d5, 0x93772851d0a7b22b, 0x76d12280182f5e00,
  0xe888e8e8a61c2841, 0x3370cc67f7408465, 0x4634344f6e8a031d, 0xaf0c661b32eb31b4,
  0x3757cdcb26d95c2c, 0x53e509d0f32aeb55, 0x1304b17927b2dfcb, 0xa7a2320511061575,
  0x3ecc8f7495140f28, 0x8b596ca141685444, 0x5be4561a5f229a18, 0xd387d84911209f0d,
  0x5e66560bf72e1a5f, 0x32b504d96136384d, 0x31c69fa0540a4aec, 0x1563bfdefacc80b1,
  0x172c9c5613a717eb, 0x1f805827a347ea9d, 0xae0070ee2f6afb3a, 0xe1f77bb83abe2e45,
  0xfb1fe0f95b210f80, 0xe7580352e5c95776, 0x1646e12c209284c7, 0x3f97105dc086f1d1,
  0x4e1d420a8b183fbd, 0xda82b46684070428, 0xb6b2c089f87fa9f6, 0x2db485e568750050,
  0x0ac96805e1e334a7, 0xb8279822c219eec5, 0xff3b2fce537e028a, 0x405fff4a93c4f70f,
  0x661cbe2703641379, 0xbdb957c4d7659545, 0x4ffb42e3c3f2099e, 0xa901c8e4585ed757,
  0x4cabcc116b5d19ad, 0x8e9472e15d4413bd, 0x0001a0f2e798b51c, 0x0e5b32c400c04bae,
  0x290b6cf63894f77b, 0xd0cb3f0ad7eea67d, 0x0b556e145fa979a1, 0x26446d2b4cfa5b7b,
  0xd98e63688809a927, 0xc078c4efc627b530, 0xd0f8c452ed4747af, 0xe42fb0dd2e00b32f,
  0x5751cc98b1812ebc, 0x9bf2f9c7a5592224, 0x72dc31f9827929ac, 0x388b5e4c9933b600,
  0x46a96722fc856d15, 0x33abd57d1fccb4f6, 0xf5a32e8628e36127, 0x8437e139f1a563ac,
  0x0f1b47ab2c1bb213, 0xfe1245392c2940e4, 0x52c82ccd0bfd2dab, 0x5a8ec26dffa90c5d,
  0x7b2923f08ce3c5ba, 0x8ba684b4fc24483f, 0x8879172903cf3236, 0x49a7d025205daca7,
  0xf6e267857aacea89, 0x32422cc5a16f71ac, 0xc3b2ef06d2cdffe3, 0x1a689e0246346b2e,
  0xbe82aa7ee027adc1, 0xbffaa5e9f9b857f4, 0x9de97718e6cb3629, 0xeaaab1036f119011,
  0x8bc731fe9c5e954b, 0xfa3d55e426003402, 0x35b4884bc6e3aa8e, 0x4967e0525cf1f050,
  0xf9651571f3e4df9e, 0x3fe3c4f2723e8938, 0x0b0d62835ce112a9, 0x60be27cc1bb8fdc1,
  0xa03d6d8b8b021999, 0x0653ae9e3125479e, 0x2810de3c1cd36bdf, 0xc3c09a1a2af40fcc,
  0xd962e9576c6a2ef1, 0x0d8c75a7e1196c9e, 0x1fa26f5be2a4f258, 0x930873d43406c399,
  0xa21027269105a62e, 0x50bcd2d7d6509bc7, 0x494f1e91ff17f2f1, 0xe969ccbf6d73649e,
  0xc3e22109f6a96e98, 0x035949c07b738144, 0x56e24a3016f6addf, 0xed69c264a65d7920,
  0x59c6040b58498838, 0xa45a8e51d4bb9110, 0xf721cbe37c81042b, 0xf40f828787f7af6b,
  0xaa75827ad27b2e72, 0x4778f53847660432, 0xcf20ee66047fb084, 0xa85f0ba124516696,
  0xafa82a2ead66dad2, 0x87c0dc112fde6941, 0xd866934046e7fe7b, 0x07725b2a7c500486]

end Bc3Miner.Kernel
